import Walleye.Base.Guards

namespace Walleye.Engine

open Walleye.Base

/-- Why a writer was fenced: a peer claimed its epoch, or its log did not take an entry. -/
inductive FenceReason where
  | peerClaimedEpoch
  | persistenceFailure
deriving DecidableEq, Repr

inductive WriteError where
  | fenced (reason : FenceReason)
  | notOwner
  | staleOwner
  | noOwner
  | tableNotFound
  | other
deriving DecidableEq, Repr

/-- How putting one slice of a write into the log ends; the rows of one that is refused, by a fence
or not, may have reached the log. -/
inductive SlicePut where
  | stored
  | refused (reason : Option FenceReason) (reached : Bool)
deriving DecidableEq, Repr

/-- One attempt of an append: the writer's open or its puts, whether the owner is confirmed
afterwards and, when fenced, whether the process still holds the table and had a writer. -/
structure AppendAttempt where
  puts : Except WriteError (List SlicePut)
  confirmed : Bool
  holds : Bool
  discards : Bool

/-- `Table::append`, with the number of slices that are in the log when it ends. -/
def putSlices : List SlicePut → Nat × Except WriteError Unit
  | [] => (0, .ok ())
  | .stored :: rest => ((putSlices rest).1 + 1, (putSlices rest).2)
  | .refused reason reached :: _ => (if reached then 1 else 0, .error (reason.elim .other .fenced))

def AppendAttempt.outcome (attempt : AppendAttempt) : Nat × Except WriteError Unit :=
  match attempt.puts with
  | .error error => (0, .error error)
  | .ok puts =>
    ((putSlices puts).1, (putSlices puts).2.bind fun _ =>
      if attempt.confirmed then .ok () else .error .staleOwner)

def appendPrepared : List AppendAttempt → Nat × Except WriteError Unit
  | [] => (0, .ok ())
  | attempt :: rest =>
    match attempt.outcome with
    | (stored, .error (.fenced reason)) =>
      if rest = [] then (stored, .error (.fenced reason))
      else if !attempt.holds then (stored, .error .notOwner)
      else if !attempt.discards then (stored, .error (.fenced reason))
      else (stored + (appendPrepared rest).1, (appendPrepared rest).2)
    | outcome => outcome

def reclaimAttempts : Nat := 5

/-- How an insert through the process that owns another table ends. -/
inductive PeerAnswer where
  | done
  | moved
  | refused
deriving DecidableEq, Repr

/-- `Engine::append`: into a table that is owned here, or through a peer, which may have stored
rows whatever it answered. -/
inductive RequestAppend where
  | own (attempts : Vector AppendAttempt reclaimAttempts)
  | peer (stored : Nat) (answer : PeerAnswer)

def RequestAppend.outcome : RequestAppend → Nat × Except WriteError Unit
  | .own attempts => appendPrepared attempts.toList
  | .peer stored .done => (stored, .ok ())
  | .peer stored .moved => (stored, .error .notOwner)
  | .peer stored .refused => (stored, .error .other)

structure Answer where
  status : Nat
  routeError : Option String
deriving DecidableEq, Repr

def routeError : WriteError → Option Answer
  | .notOwner => some ⟨409, some "stale-owner"⟩
  | .staleOwner => some ⟨409, some "lost-ownership"⟩
  | .noOwner => some ⟨503, some "no-owner"⟩
  | _ => none

def writeError : WriteError → Answer
  | .fenced .peerClaimedEpoch => ⟨503, none⟩
  | .fenced .persistenceFailure => ⟨503, none⟩
  | error => (routeError error).getD ⟨if error = .tableNotFound then 404 else 400, none⟩

/-- What a request does: its appends one after the other, one for an insert and any number for a
worker's request or the refresh of a view, and how it ends when they succeed: an error of another
step, or an answer, which is the worker's own for its request. -/
structure Request where
  appends : List RequestAppend
  ends : Except WriteError Answer

def runAppends : List RequestAppend → Nat × Except WriteError Unit
  | [] => (0, .ok ())
  | append :: rest =>
    match append.outcome with
    | (stored, .error error) => (stored, .error error)
    | (stored, .ok ()) => (stored + (runAppends rest).1, (runAppends rest).2)

def Request.result (request : Request) : Except WriteError Answer :=
  (runAppends request.appends).2.bind fun _ => request.ends

/-- What the owner does with a request that reached it: its own quorum is unreachable, the table
is another's or nobody's, or it runs the request. -/
inductive Handling where
  | unwritable
  | moved
  | unowned
  | runs (request : Request)

def Handling.stored : Handling → Nat
  | .runs request => (runAppends request.appends).1
  | _ => 0

def Handling.answer : Handling → Answer
  | .unwritable => ⟨503, none⟩
  | .moved => ⟨409, some "stale-owner"⟩
  | .unowned => ⟨503, some "no-owner"⟩
  | .runs request =>
    match request.result with
    | .ok answer => answer
    | .error error => writeError error

/-- How sending a request ends: no connection, a connection that closes once the request is
written, no answer in time, no answer before the owner's lease lapses, or an answer. -/
inductive SendOutcome where
  | connect
  | request (delivered : Option Handling)
  | timeout (delivered : Option Handling)
  | lost (delivered : Option Handling)
  | response (handled : Handling)

def SendOutcome.stored : SendOutcome → Nat
  | .connect => 0
  | .request delivered => (delivered.map Handling.stored).getD 0
  | .timeout delivered => (delivered.map Handling.stored).getD 0
  | .lost delivered => (delivered.map Handling.stored).getD 0
  | .response handled => handled.stored

def Answer.waits (answer : Answer) : Bool := answer.status = 503 && answer.routeError = none

def SendOutcome.retryable (failed : Nat) : SendOutcome → Bool × Nat
  | .connect => (failed + 1 < 3, failed + 1)
  | .request _ => (failed + 1 < 3, failed + 1)
  | .timeout _ => (false, failed)
  | .lost _ => (false, failed)
  | .response handled => (handled.answer.waits, failed)

/-- A turn of the loop: how the send ends, and whether the deadline has passed by then. -/
structure SendTurn where
  outcome : SendOutcome
  late : Bool

def forward (failed : Nat) : List SendTurn → List SendOutcome × Option SendOutcome
  | [] => ([], none)
  | turn :: rest =>
    let (retryable, failed) := turn.outcome.retryable failed
    if !retryable || turn.late then ([turn.outcome], some turn.outcome)
    else (turn.outcome :: (forward failed rest).1, (forward failed rest).2)

def Answer.moved (answer : Answer) : Bool :=
  answer.routeError ∈ [some "stale-owner", some "owner-unreachable", some "no-owner"]

def SendOutcome.moved : SendOutcome → Bool
  | .connect => true
  | .response handled => handled.answer.moved
  | _ => false

/-- A turn of routing: the request runs here, goes to the owner, or finds none. -/
inductive RouteTurn where
  | here (request : Request)
  | remote (turns : List SendTurn)
  | unowned

def RouteTurn.sends : RouteTurn → List SendOutcome
  | .here request => [.response (.runs request)]
  | .remote turns => (forward 0 turns).1
  | .unowned => []

/-- The request finds the table moved: it is refused here as not the owner's, or by the answer to
its forward. -/
def RouteTurn.again : RouteTurn → Bool
  | .here request =>
    match request.result with
    | .error .notOwner => true
    | _ => false
  | .remote turns => (forward 0 turns).2.any (·.moved)
  | .unowned => false

/-- The sends of a request, which goes once more when it finds the table moved. -/
def routeToOwner (first second : RouteTurn) : List SendOutcome :=
  first.sends ++ if first.again then second.sends else []

/-- A send that is followed by another one left no row of the write in the log. -/
def AtMostOnce (sends : List SendOutcome) : Prop := ∀ sent ∈ sends.dropLast, sent.stored = 0

def AppendAttempt.Fenced (attempt : AppendAttempt) : Prop :=
  ∃ reason, attempt.outcome.2 = .error (.fenced reason)

def Answer.asks (answer : Answer) : Bool := answer.waits || answer.moved

/-- Nothing of an append that a fence ended is in the log, nothing of an insert that a peer refused
as not its own, and an answer that asks for the request again comes before anything was appended. -/
structure Request.Clean (request : Request) : Prop where
  fenced : ∀ attempts, .own attempts ∈ request.appends → ∀ attempt ∈ attempts.toList,
    attempt.Fenced → attempt.outcome.1 = 0
  moved : ∀ stored, .peer stored .moved ∈ request.appends → stored = 0
  early : (Handling.runs request).answer.asks = true →
    ∀ append ∈ request.appends.head?, append.outcome.2 ≠ .ok ()

def SendOutcome.Clean : SendOutcome → Prop
  | .request (some handled) => handled.stored = 0
  | .response (.runs served) => served.Clean
  | _ => True

def RouteTurn.Clean : RouteTurn → Prop
  | .here request => request.Clean
  | .remote turns => ∀ turn ∈ turns, turn.outcome.Clean
  | .unowned => True

section Clean

def WriteError.Asks (error : WriteError) : Prop :=
  (∃ reason, error = .fenced reason) ∨ error = .notOwner ∨ error = .noOwner

theorem writeError_asks (h : (writeError error).asks = true) : error.Asks := by
  cases error with
  | fenced reason => exact .inl ⟨reason,rfl⟩
  | notOwner => exact .inr (.inl rfl)
  | noOwner => exact .inr (.inr rfl)
  | _ => simp [writeError,routeError,Answer.asks,Answer.waits,Answer.moved] at h

theorem putSlices_error (h : (putSlices puts).2 = .error error) :
    error = .other ∨ ∃ reason, error = .fenced reason := by
  induction puts with
  | nil => cases h
  | cons put rest ih =>
    cases put with
    | stored => exact ih h
    | refused reason reached =>
      cases h
      cases reason with
      | none => exact .inl rfl
      | some reason => exact .inr ⟨reason,rfl⟩

/-- An attempt that ends with such an error and not with a fence did not open its writer. -/
theorem AppendAttempt.outcome_asks {attempt : AppendAttempt}
    (h : attempt.outcome.2 = .error error) (ha : error.Asks) :
    attempt.Fenced ∨ attempt.outcome.1 = 0 := by
  rcases ha with ⟨reason,rfl⟩ | hn
  · exact .inl ⟨reason,h⟩
  · right
    unfold AppendAttempt.outcome at h ⊢
    cases hp : attempt.puts with
    | error e => rfl
    | ok puts =>
      simp only [hp] at h
      cases hs : (putSlices puts).2 with
      | ok u =>
        simp only [hs,Except.bind] at h
        split at h <;> cases h
        simp at hn
      | error e =>
        simp only [hs,Except.bind,Except.error.injEq] at h
        subst h
        rcases putSlices_error hs with rfl | ⟨reason,rfl⟩
        · simp at hn
        · simp at hn

theorem appendPrepared_asks (hc : ∀ attempt ∈ attempts, attempt.Fenced → attempt.outcome.1 = 0)
    (h : (appendPrepared attempts).2 = .error error) (ha : error.Asks) :
    (appendPrepared attempts).1 = 0 := by
  induction attempts with
  | nil => rfl
  | cons attempt rest ih =>
    rw [List.forall_mem_cons] at hc
    unfold appendPrepared at h ⊢
    split
    · rename_i stored reason ho
      have hs : stored = 0 := by simpa [ho] using hc.1 ⟨reason,by rw [ho]⟩
      simp only [ho] at h
      repeat' split at h
      all_goals simp_all
    · rename_i ho
      have he : attempt.outcome.2 = .error error := by
        split at h
        · rename_i hf
          exact absurd hf (ho _ _)
        · exact h
      exact (AppendAttempt.outcome_asks he ha).elim hc.1 id

theorem RequestAppend.outcome_asks {append : RequestAppend}
    (hf : ∀ attempts, .own attempts = append → ∀ attempt ∈ attempts.toList,
      attempt.Fenced → attempt.outcome.1 = 0)
    (hm : ∀ stored, .peer stored .moved = append → stored = 0)
    (h : append.outcome.2 = .error error) (ha : error.Asks) : append.outcome.1 = 0 := by
  cases append with
  | own attempts => exact appendPrepared_asks (hf attempts rfl) h ha
  | peer stored answer =>
    cases answer with
    | done => cases h
    | moved => exact hm stored rfl
    | refused =>
      cases h
      simp [WriteError.Asks] at ha

/-- A clean request whose answer asks for it again has stored nothing. -/
theorem Request.Clean.stored {request : Request} (h : request.Clean)
    (ha : (Handling.runs request).answer.asks = true) : (Handling.runs request).stored = 0 := by
  have he := h.early ha
  obtain ⟨appends,ends⟩ := request
  cases appends with
  | nil => rfl
  | cons append rest =>
    have hne := he append rfl
    cases ho : append.outcome.2 with
    | ok u => exact absurd ho hne
    | error error =>
      have hr : runAppends (append :: rest) = (append.outcome.1,.error error) := by
        unfold runAppends
        generalize append.outcome = outcome at ho
        obtain ⟨stored,result⟩ := outcome
        cases ho
        rfl
      simp only [Handling.answer,Request.result,hr,Except.bind] at ha
      simp only [Handling.stored,hr]
      refine append.outcome_asks ?_ ?_ ho (writeError_asks ha)
      · rintro attempts rfl
        exact h.fenced attempts List.mem_cons_self
      · rintro stored rfl
        exact h.moved stored List.mem_cons_self

theorem SendOutcome.Clean.stored {outcome : SendOutcome} (h : outcome.Clean) (failed : Nat)
    (hr : (outcome.retryable failed).1 = true ∨ outcome.moved = true) : outcome.stored = 0 := by
  cases outcome with
  | connect => rfl
  | request delivered =>
    cases delivered with
    | none => rfl
    | some handled => exact h
  | timeout delivered => simp [SendOutcome.retryable,SendOutcome.moved] at hr
  | lost delivered => simp [SendOutcome.retryable,SendOutcome.moved] at hr
  | response handled =>
    cases handled with
    | runs request =>
      apply Request.Clean.stored h
      simpa [Answer.asks,SendOutcome.retryable,SendOutcome.moved] using hr
    | _ => rfl

/-- A forward sends again only what is not stored, and is answered with a moved table only when
its last send stored nothing either. -/
theorem forward_unstored {turns : List SendTurn} (h : ∀ turn ∈ turns, turn.outcome.Clean)
    (failed : Nat) :
    AtMostOnce (forward failed turns).1 ∧ ((forward failed turns).2.any (·.moved) = true →
      ∀ sent ∈ (forward failed turns).1, sent.stored = 0) := by
  induction turns generalizing failed with
  | nil => exact ⟨nofun,nofun⟩
  | cons turn rest ih =>
    rw [List.forall_mem_cons] at h
    unfold forward
    simp only
    split
    · refine ⟨nofun,fun hm => ?_⟩
      simpa using h.1.stored failed (.inr (by simpa using hm))
    · rename_i hr
      simp only [Bool.or_eq_true,Bool.not_eq_true',not_or,Bool.not_eq_false] at hr
      have hf := h.1.stored failed (.inl hr.1)
      obtain ⟨hl,hm⟩ := ih h.2 (turn.outcome.retryable failed).2
      refine ⟨fun sent hs => ?_,fun ha => List.forall_mem_cons.mpr ⟨hf,hm ha⟩⟩
      by_cases hn : (forward (turn.outcome.retryable failed).2 rest).1 = []
      · simp [hn] at hs
      · rw [List.dropLast_cons_of_ne_nil hn] at hs
        exact (List.mem_cons.mp hs).elim (fun hf' => hf' ▸ hf) (hl sent)

theorem RouteTurn.Clean.unstored {turn : RouteTurn} (h : turn.Clean) :
    AtMostOnce turn.sends ∧ (turn.again = true → ∀ sent ∈ turn.sends, sent.stored = 0) := by
  cases turn with
  | here request =>
    refine ⟨nofun,fun ha => ?_⟩
    have hr : request.result = .error .notOwner := by
      simp only [RouteTurn.again] at ha
      split at ha
      · assumption
      · cases ha
    have hs := Request.Clean.stored h (by simp only [Handling.answer,hr]; decide)
    simpa [RouteTurn.sends,SendOutcome.stored] using hs
  | remote turns => exact forward_unstored h 0
  | unowned => exact ⟨nofun,nofun⟩

end Clean

theorem AtMostOnce.append (h : ∀ sent ∈ sends, sent.stored = 0) (hm : AtMostOnce more) :
    AtMostOnce (sends ++ more) := by
  intro sent hs
  by_cases hn : more = []
  · subst hn
    exact h sent (List.dropLast_subset _ (by simpa using hs))
  · rw [List.dropLast_append_of_ne_nil hn] at hs
    exact (List.mem_append.mp hs).elim (h sent) (hm sent)

/-- When no connection closes on a request that has a row in the log, no fence ends an append that
has one, and no request is answered to be sent again after it has appended, it is sent again only
if none of it is stored. -/
theorem forward_resends_only_unstored {first second : RouteTurn} (hfirst : first.Clean)
    (hsecond : second.Clean) : AtMostOnce (routeToOwner first second) := by
  unfold routeToOwner
  split
  · rename_i ha
    exact AtMostOnce.append (hfirst.unstored.2 ha) hsecond.unstored.1
  · rw [List.append_nil]
    exact hfirst.unstored.1

def insertOf (attempt : AppendAttempt) : Request :=
  ⟨[.own (.replicate 5 attempt)], .ok ⟨200, none⟩⟩

def storedAppend : AppendAttempt := ⟨.ok [.stored], true, true, true⟩

def halfStoredAppend : AppendAttempt :=
  ⟨.ok [.stored, .refused (some .persistenceFailure) false], true, true, true⟩

/-- An append that another writer's claim refused before it stored anything. -/
def fencedAppend : AppendAttempt :=
  ⟨.ok [.refused (some .peerClaimedEpoch) false], true, true, true⟩

def workerRequest : Request :=
  ⟨[.own (.replicate 5 storedAppend), .own (.replicate 5 fencedAppend)], .ok ⟨200, none⟩⟩

theorem insertOf_storedAppend_clean : (insertOf storedAppend).Clean := by
  refine ⟨?_,?_,fun ha => absurd ha (by decide)⟩
  · intro attempts ha attempt hat hf
    cases List.mem_singleton.mp ha
    rw [(List.mem_replicate.mp hat).2] at hf
    obtain ⟨reason,hr⟩ := hf
    cases hr
  · intro stored hs
    cases List.mem_singleton.mp hs

/-- The owner reaches its quorum late and then refuses connections; this process takes the table
and appends. -/
theorem forward_resends_only_unstored_of_restart :
    AtMostOnce (routeToOwner (.remote [⟨.response .unwritable, false⟩, ⟨.connect, false⟩,
      ⟨.connect, false⟩, ⟨.connect, false⟩]) (.here (insertOf storedAppend))) :=
  forward_resends_only_unstored (by simp [RouteTurn.Clean,SendOutcome.Clean])
    insertOf_storedAppend_clean

/-- The connection closes on a write that is stored, or the log of the owner fails under one; a
worker's request is fenced after its first append; and a process that lost the table sends on a
write of which a slice is stored. -/
theorem forward_sends_a_stored_write_again :
    ¬AtMostOnce (routeToOwner (.remote [⟨.request (some (.runs (insertOf storedAppend))), false⟩,
        ⟨.connect, false⟩]) .unowned) ∧
      ¬AtMostOnce (routeToOwner (.remote [⟨.response (.runs (insertOf halfStoredAppend)), false⟩,
        ⟨.connect, false⟩]) .unowned) ∧
      ¬AtMostOnce (routeToOwner (.remote [⟨.response (.runs workerRequest), false⟩,
        ⟨.connect, false⟩]) .unowned) ∧
      ¬AtMostOnce (routeToOwner (.here (insertOf { halfStoredAppend with holds := false }))
        (.remote [⟨.connect, false⟩])) := by
  refine ⟨?_,?_,?_,?_⟩
  all_goals
    intro ho
    exact absurd (ho _ (List.mem_singleton.mpr rfl)) (by decide)

end Walleye.Engine
