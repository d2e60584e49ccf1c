import Mathlib.Data.List.Basic
import Mathlib.Logic.Function.Basic
import Walleye.Base.Runs

namespace Walleye.Lance

open Walleye.Base

variable {ν ρ : Type}

/-- One write-ahead log entry. The sentinel a successor fences its predecessor
with is an entry without rows. -/
structure Entry (ρ : Type) where
  position : Nat
  epoch : Nat
  rows : List ρ
  deriving DecidableEq, Repr

inductive Phase where
  | checked
  | claimed
  | fenced
  | opened
  | closed
  deriving DecidableEq, Repr

/-- One writer of the table: its log, what its open read from the manifest (`base`, `replayFrom`),
its log cursor, the entries no flush of its own has covered, and whether it believes its note is
out. `before` is what was acknowledged when its open began. -/
structure Writer (ν ρ : Type) where
  log : ν
  minted : Option Nat
  before : List ρ
  phase : Phase
  epoch : Nat
  base : List ρ
  replayFrom : Nat
  next : Nat
  memtable : List (Entry ρ)
  noted : Bool

/-- One table in shared storage, its writers and logs. `claims` has the log of every claimant, the
newest first, so the epoch is its length. `opens` has, for every open, what was acknowledged before
it and what it sees. -/
structure Shared (ν ρ : Type) where
  note : Option ν
  claims : List ν
  replayAfter : Nat
  flushed : List ρ
  logs : ν → List (Entry ρ)
  writers : Nat → Option (Writer ν ρ)
  deletes : Nat
  acknowledged : List ρ
  opens : List (List ρ × List ρ)

inductive SharedStep (ν ρ : Type) where
  | check (id : Nat) (log : ν) (bitr : Bool)
  | claim (id : Nat)
  | fence (id : Nat)
  | replay (id : Nat)
  | note (id : Nat)
  | put (id : Nat) (rows : List ρ)
  | flush (id : Nat) (entries : Nat)
  | clear (id : Nat)
  | landDelete (answered : Option Nat)
  | close (id : Nat)
  deriving DecidableEq, Repr

def Shared.epoch (s : Shared ν ρ) : Nat := s.claims.length

def Shared.empty : Shared ν ρ where
  note := none
  claims := []
  replayAfter := 0
  flushed := []
  logs := fun _ => []
  writers := fun _ => none
  deletes := 0
  acknowledged := []
  opens := []

def lastPosition (log : List (Entry ρ)) : Nat := (log.getLast?.map Entry.position).getD 0

/-- The entries replay reads: from position `p` up to the first one missing. -/
def replayRun : Nat → List (Entry ρ) → List (Entry ρ)
  | _, [] => []
  | p, e :: es =>
    if e.position < p then replayRun p es
    else if e.position = p then e :: replayRun (p + 1) es
    else []

/-- `reachable_tail`, for logs that are named: no note, or one that names this
log. A Bitr writer's identity is minted here from the manifest's epoch. -/
def Shared.check [DecidableEq ν] (s : Shared ν ρ) (id : Nat) (log : ν) (bitr : Bool) :
    Option (Shared ν ρ) :=
  if (s.writers id).isNone ∧ (s.note = none ∨ s.note = some log) then
    some { s with
      writers := Function.update s.writers id (some {
        log, minted := if bitr then some (s.epoch + 1) else none
        before := s.acknowledged, phase := .checked, epoch := 0, base := [], replayFrom := 0
        next := 0, memtable := [], noted := false }) }
  else none

def Shared.claimant (s : Shared ν ρ) (w : Writer ν ρ) : Writer ν ρ :=
  { w with
    phase := .claimed
    epoch := s.epoch + 1
    base := s.flushed
    replayFrom := s.replayAfter }

/-- `claim_epoch`: the manifest's epoch moves by one under a compare-and-swap.
A Bitr writer that was not minted the epoch it claims gives up. -/
def Shared.claim (s : Shared ν ρ) (id : Nat) : Option (Shared ν ρ) :=
  match s.writers id with
  | some w =>
    if w.phase = .checked then
      some { s with
        claims := w.log :: s.claims
        writers := Function.update s.writers id
          (if w.minted.getD (s.epoch + 1) = s.epoch + 1 then some (s.claimant w) else none) }
    else none
  | none => none

def Accepts (log : List (Entry ρ)) (e : Entry ρ) : Prop :=
  ∀ x ∈ log, x.position < e.position ∧ x.epoch ≤ e.epoch

instance (log : List (Entry ρ)) : DecidablePred (Accepts log) := fun e =>
  inferInstanceAs (Decidable (∀ x ∈ log, x.position < e.position ∧ x.epoch ≤ e.epoch))

def Shared.appendLog [DecidableEq ν] (s : Shared ν ρ) (log : ν) (e : Entry ρ) : Shared ν ρ :=
  { s with logs := Function.update s.logs log (s.logs log ++ [e]) }

@[simp] theorem Shared.appendLog_self [DecidableEq ν] (s : Shared ν ρ) (log : ν) (e : Entry ρ) :
    (s.appendLog log e).logs log = s.logs log ++ [e] := by
  simp [Shared.appendLog]

def Shared.nextPosition (s : Shared ν ρ) (log : ν) : Nat :=
  max (lastPosition (s.logs log)) s.replayAfter + 1

def Shared.sentinel (s : Shared ν ρ) (w : Writer ν ρ) : Entry ρ :=
  { position := s.nextPosition w.log, epoch := w.epoch, rows := [] }

def Writer.fenced (w : Writer ν ρ) (next : Nat) : Writer ν ρ := { w with phase := .fenced, next }

/-- `write_fence_sentinel`; the first epoch has no predecessor to fence. -/
def Shared.fence [DecidableEq ν] (s : Shared ν ρ) (id : Nat) : Option (Shared ν ρ) :=
  match s.writers id with
  | some w =>
    if w.phase = .claimed then
      if w.epoch < 2 then
        some { s with
          writers := Function.update s.writers id (some (w.fenced (s.nextPosition w.log))) }
      else if Accepts (s.logs w.log) (s.sentinel w) then
        some { s.appendLog w.log (s.sentinel w) with
          writers := Function.update s.writers id (some (w.fenced (s.nextPosition w.log + 1))) }
      else none
    else none
  | none => none

/-- `replay_memtable_from_wal`: the writer's own log from the manifest's cursor.
An entry of a later epoch aborts the open. -/
def Shared.replay (s : Shared ν ρ) (id : Nat) : Option (Shared ν ρ) :=
  match s.writers id with
  | some w =>
    let run := replayRun (w.replayFrom + 1) (s.logs w.log)
    if w.phase = .fenced then
      if ∀ e ∈ run, e.epoch ≤ w.epoch then
        some { s with
          writers := Function.update s.writers id (some { w with
            phase := .opened, memtable := run.filter fun e => !e.rows.isEmpty })
          opens := (w.before, w.base ++ run.flatMap Entry.rows) :: s.opens }
      else
        some { s with writers := Function.update s.writers id none }
    else none
  | none => none

/-- `note_open_tail`: the note takes effect, perhaps after the writer that wrote
it is gone. -/
def Shared.leaveNote (s : Shared ν ρ) (id : Nat) : Option (Shared ν ρ) :=
  match s.writers id with
  | some w =>
    if w.phase = .opened ∨ w.phase = .closed then
      some { s with
        note := some w.log
        writers := Function.update s.writers id (some { w with noted := true }) }
    else none
  | none => none

def Shared.put [DecidableEq ν] (s : Shared ν ρ) (id : Nat) (rows : List ρ) :
    Option (Shared ν ρ) :=
  match s.writers id with
  | some w =>
    let e : Entry ρ := { position := w.next, epoch := w.epoch, rows }
    if w.phase = .opened ∧ w.noted = true ∧ rows ≠ [] ∧ Accepts (s.logs w.log) e then
      some { s.appendLog w.log e with
        writers := Function.update s.writers id (some { w with
          next := w.next + 1, memtable := w.memtable ++ [e] })
        acknowledged := s.acknowledged ++ rows }
    else none
  | none => none

/-- A flush covers the oldest entries of the writer's memtable. Its commit is
under the writer's epoch, so only the last claimant's succeeds. -/
def Shared.flush (s : Shared ν ρ) (id entries : Nat) : Option (Shared ν ρ) :=
  match s.writers id with
  | some w =>
    if w.phase = .opened ∧ w.epoch = s.epoch ∧ w.memtable.take entries ≠ [] then
      some { s with
        flushed := s.flushed ++ (w.memtable.take entries).flatMap Entry.rows
        replayAfter := lastPosition (w.memtable.take entries)
        writers := Function.update s.writers id (some { w with
          memtable := w.memtable.drop entries }) }
    else none
  | none => none

/-- The end of `checkpoint`: everything is flushed, and the delete of the note
is sent. -/
def Shared.clear (s : Shared ν ρ) (id : Nat) : Option (Shared ν ρ) :=
  match s.writers id with
  | some w =>
    if w.phase = .opened ∧ w.memtable.isEmpty then some { s with deletes := s.deletes + 1 }
    else none
  | none => none

/-- A delete of the note takes effect; the writer that sent it may be told. -/
def Shared.landDelete (s : Shared ν ρ) (answered : Option Nat) : Option (Shared ν ρ) :=
  if 0 < s.deletes then
    some { s with
      note := none
      deletes := s.deletes - 1
      writers := fun id =>
        if answered = some id then (s.writers id).map fun w => { w with noted := false }
        else s.writers id }
  else none

/-- A writer closes or dies. Of an open that had not finished nothing is left;
an opened writer may still have a note on its way. -/
def Shared.close (s : Shared ν ρ) (id : Nat) : Shared ν ρ :=
  { s with
    writers := Function.update s.writers id
      (((s.writers id).filter fun w => w.phase = .opened).map fun w =>
        { w with phase := .closed }) }

def Shared.step [DecidableEq ν] (s : Shared ν ρ) : SharedStep ν ρ → Option (Shared ν ρ)
  | .check id log bitr => s.check id log bitr
  | .claim id => s.claim id
  | .fence id => s.fence id
  | .replay id => s.replay id
  | .note id => s.leaveNote id
  | .put id rows => s.put id rows
  | .flush id entries => s.flush id entries
  | .clear id => s.clear id
  | .landDelete answered => s.landDelete answered
  | .close id => some (s.close id)

/-- Every writer that opened sees every row acknowledged before its open began. -/
def Shared.Visible (s : Shared ν ρ) : Prop := ∀ o ∈ s.opens, ∀ r ∈ o.1, r ∈ o.2

instance [DecidableEq ρ] : DecidablePred (Shared.Visible (ν := ν) (ρ := ρ)) := fun s =>
  inferInstanceAs (Decidable (∀ o ∈ s.opens, ∀ r ∈ o.1, r ∈ o.2))

def Shared.Drained (s : Shared ν ρ) : Prop := ∀ r ∈ s.acknowledged, r ∈ s.flushed

instance [DecidableEq ρ] : DecidablePred (Shared.Drained (ν := ν) (ρ := ρ)) := fun s =>
  inferInstanceAs (Decidable (∀ r ∈ s.acknowledged, r ∈ s.flushed))

def Shared.SameLog (s : Shared ν ρ) (w : Writer ν ρ) : Prop :=
  ∀ log ∈ s.claims.take (s.epoch - w.epoch), log = w.log

/-- What an open's check and the note before an append established still holds: at the claim the
note is absent or names the claimant's log; at a put it names the writer's log, and no writer of
another log has claimed since; while an acknowledged row is unflushed no delete takes effect and no
note replaces another log's. -/
def Shared.Settled (s : Shared ν ρ) : SharedStep ν ρ → Prop
  | .claim id => ∀ w ∈ s.writers id, s.note = none ∨ s.note = some w.log
  | .note id => ∀ w ∈ s.writers id, s.note = some w.log ∨ s.Drained
  | .put id _ => ∀ w ∈ s.writers id, s.note = some w.log ∧ s.SameLog w
  | .landDelete _ => s.Drained
  | _ => True

/-- Deciding a condition on the writer, if there is one. -/
instance decidableForallWriter {P : Writer ν ρ → Prop} [DecidablePred P] :
    (w : Option (Writer ν ρ)) → Decidable (∀ x ∈ w, P x)
  | none => isTrue (fun _ h => by cases h)
  | some w => decidable_of_iff (P w) (by simp)

instance [DecidableEq ν] [DecidableEq ρ] (s : Shared ν ρ) : DecidablePred s.Settled := fun a =>
  match a with
  | .claim id =>
    inferInstanceAs (Decidable (∀ w ∈ s.writers id, s.note = none ∨ s.note = some w.log))
  | .note id =>
    inferInstanceAs (Decidable (∀ w ∈ s.writers id, s.note = some w.log ∨ s.Drained))
  | .put id _ => inferInstanceAs (Decidable (∀ w ∈ s.writers id, s.note = some w.log ∧
      ∀ log ∈ s.claims.take (s.epoch - w.epoch), log = w.log))
  | .landDelete _ => inferInstanceAs (Decidable s.Drained)
  | .check _ _ _ | .fence _ | .replay _ | .flush _ _ | .clear _ | .close _ => instDecidableTrue

def Sorted (log : List (Entry ρ)) : Prop := log.Pairwise fun a b => a.position < b.position

def Dense (log : List (Entry ρ)) (p : Nat) : Prop :=
  ∀ e ∈ log, ∀ q, p < q → q ≤ e.position → ∃ x ∈ log, x.position = q

theorem mem_replayRun (h : e ∈ replayRun p log) : e ∈ log ∧ p ≤ e.position := by
  induction log generalizing p with
  | nil => cases h
  | cons x xs ih =>
    unfold replayRun at h
    split at h
    · obtain ⟨hm,hl⟩ := ih h
      exact ⟨List.mem_cons_of_mem _ hm,hl⟩
    · split at h
      · rename_i hx
        rcases List.mem_cons.mp h with rfl | h
        · exact ⟨List.mem_cons_self,Nat.le_of_eq hx.symm⟩
        · obtain ⟨hm,hl⟩ := ih h
          exact ⟨List.mem_cons_of_mem _ hm,by omega⟩
      · cases h

theorem replayRun_sublist (p : Nat) (log : List (Entry ρ)) : (replayRun p log).Sublist log := by
  induction log generalizing p with
  | nil => exact List.Sublist.refl _
  | cons x xs ih =>
    unfold replayRun
    split
    · exact (ih p).cons x
    · split
      · exact (ih (p + 1)).cons_cons x
      · exact List.nil_sublist _

/-- The replay reaches an entry when no position before it is missing. -/
theorem replayRun_reaches (hs : Sorted log) (he : e ∈ log)
    (hp : p ≤ e.position) (hd : ∀ q, p ≤ q → q ≤ e.position → ∃ x ∈ log, x.position = q) :
    e ∈ replayRun p log := by
  induction log generalizing p with
  | nil => cases he
  | cons x xs ih =>
    obtain ⟨hl,hs⟩ := List.pairwise_cons.mp hs
    unfold replayRun
    split
    · rename_i hx
      have hn : e ≠ x := by
        rintro rfl
        omega
      refine ih hs ((List.mem_cons.mp he).resolve_left hn) hp fun q hq hqe => ?_
      obtain ⟨y,hy,rfl⟩ := hd q hq hqe
      rcases List.mem_cons.mp hy with rfl | hy
      · omega
      · exact ⟨y,hy,rfl⟩
    · rename_i hg
      have hx : x.position = p := by
        obtain ⟨y,hy,hyp⟩ := hd p (Nat.le_refl _) hp
        rcases List.mem_cons.mp hy with rfl | hy
        · exact hyp
        · have := hl y hy
          omega
      rw [if_pos hx]
      rcases List.mem_cons.mp he with rfl | he
      · exact List.mem_cons_self
      · refine List.mem_cons_of_mem _ (ih hs he ?_ fun q hq hqe => ?_)
        · have := hl e he
          omega
        · obtain ⟨y,hy,rfl⟩ := hd q (by omega) hqe
          rcases List.mem_cons.mp hy with rfl | hy
          · omega
          · exact ⟨y,hy,rfl⟩

theorem le_lastPosition (hs : Sorted log) (he : e ∈ log) : e.position ≤ lastPosition log := by
  induction log generalizing e with
  | nil => cases he
  | cons x xs ih =>
    obtain ⟨hl,ht⟩ := List.pairwise_cons.mp hs
    cases xs with
    | nil =>
      simp only [List.mem_singleton] at he
      subst he
      exact Nat.le_refl _
    | cons y ys =>
      have hsa : lastPosition (x :: y :: ys) = lastPosition (y :: ys) := by
        simp [lastPosition]
      rw [hsa]
      rcases List.mem_cons.mp he with rfl | he
      · exact Nat.le_trans (Nat.le_of_lt (hl y List.mem_cons_self))
          (ih ht List.mem_cons_self)
      · exact ih ht he

theorem lastPosition_mem (h : log ≠ []) : ∃ e ∈ log, e.position = lastPosition log := by
  refine ⟨log.getLast h,List.getLast_mem h,?_⟩
  simp [lastPosition,List.getLast?_eq_some_getLast h]

end Walleye.Lance
