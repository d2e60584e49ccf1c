import Walleye.Bitr.Record
import Walleye.Engine.Arrival

namespace Walleye.Admission

open Walleye.Bitr
open Walleye.Engine (u64Max)

/-- The owner and generation a token is signed for. The signature is a function of the two, so a
verified token and a node's marker are this pair. -/
structure Marker (ι : Type) where
  owner : ι
  generation : Nat
deriving DecidableEq, Repr

/-- The marker file beside a node's append log. -/
structure DurableMaintenanceState (ι : Type) where
  generation : Nat
  active : Option (Marker ι)
  lastReleased : Option (Marker ι)
deriving DecidableEq, Repr

structure StorageNodeStatus (ι : Type) where
  maintenance : Bool
  maintenanceOwner : Option ι
  maintenanceGeneration : Nat
deriving DecidableEq, Repr

structure DurableFenceObservation (ι : Type) where
  active : Option (Marker ι)
  fencedStorage : Nat
  generation : Nat
  complete : Bool
deriving DecidableEq, Repr

inductive LocalMaintenanceState (ι : Type) where
  | open
  | unknown
  | fenced (fence : Marker ι)
deriving DecidableEq, Repr

variable {ι : Type} [DecidableEq ι]

def DurableMaintenanceState.initial : DurableMaintenanceState ι := ⟨0, none, none⟩

def DurableMaintenanceState.status (s : DurableMaintenanceState ι) : StorageNodeStatus ι :=
  ⟨s.active.isSome, s.active.map Marker.owner, s.generation⟩

def DurableMaintenanceState.fence (s : DurableMaintenanceState ι) (token : Marker ι) :
    Except ReplicaError (DurableMaintenanceState ι) :=
  match s.active with
  | some active => if active = token then .ok s else .error .writerFenced
  | none =>
    if token.generation ≤ s.generation then .error .writerFenced
    else .ok ⟨token.generation, some token, none⟩

def DurableMaintenanceState.releaseFence (s : DurableMaintenanceState ι) (token : Marker ι) :
    Except ReplicaError (DurableMaintenanceState ι) :=
  match s.active with
  | some active =>
    if active = token then .ok ⟨s.generation, none, some token⟩ else .error .gatewayUnauthorized
  | none =>
    if s.lastReleased = some token then .ok s
    else if s.generation < token.generation then .ok ⟨token.generation, none, some token⟩
    else .error .gatewayUnauthorized

def LocalMaintenanceState.grants (owner : ι) : LocalMaintenanceState ι → Bool
  | .open => true
  | .unknown => false
  | .fenced fence => fence.owner = owner

section Observation

variable (blank : ι → Bool)

def issueMaintenanceToken (owner : ι) (generation : Nat) : Except ReplicaError (Marker ι) :=
  if blank owner = true ∨ generation = 0 then
    .error (.protocol "maintenance owner and generation are required")
  else .ok ⟨owner, generation⟩

def activeMarkers : List (StorageNodeStatus ι) → Except ReplicaError (List (Marker ι))
  | [] => .ok []
  | status :: rest =>
    if status.maintenance = true then
      match status.maintenanceOwner.filter fun owner => !blank owner with
      | none => .error (.protocol "active storage fence is missing its owner")
      | some owner =>
        if status.maintenanceGeneration = 0 then
          .error (.protocol "active storage fence has zero generation")
        else (activeMarkers rest).map (⟨owner, status.maintenanceGeneration⟩ :: ·)
    else activeMarkers rest

def observeDurableFence (statuses : List (StorageNodeStatus ι)) :
    Except ReplicaError (DurableFenceObservation ι) :=
  let generation := statuses.foldl (fun g status => max g status.maintenanceGeneration) 0
  (activeMarkers blank statuses).map fun
    | [] => ⟨none, 0, generation, true⟩
    | pair :: rest =>
      if rest.all (· = pair) = true then
        ⟨some pair, rest.length + 1, generation, decide (rest.length + 1 = statuses.length)⟩
      else ⟨none, 0, generation, false⟩

def LocalMaintenanceState.setUnknown : LocalMaintenanceState ι → LocalMaintenanceState ι
  | .fenced fence => .fenced fence
  | _ => .unknown

def applyDurableObservation (current : LocalMaintenanceState ι)
    (statuses : List (StorageNodeStatus ι)) (expectedNodes : Nat) :
    Except ReplicaError (DurableFenceObservation ι) × LocalMaintenanceState ι :=
  match observeDurableFence blank statuses with
  | .error e => (.error e, current.setUnknown)
  | .ok observation =>
    match observation.active with
    | some pair =>
      match issueMaintenanceToken blank pair.owner pair.generation with
      | .error e => (.error e, current)
      | .ok token => (.ok observation, .fenced token)
    | none =>
      if statuses.length ≠ expectedNodes then (.ok observation, current)
      else if observation.complete = true then (.ok observation, .open)
      else (.ok observation, .unknown)

end Observation

def ackQuorum : Nat := 2

/-- `members` are all retained members, `active` those of complete active cohorts; no gateway is
built, and no member removed, below the quorum. -/
structure GatewayConfig (ι ν : Type) where
  direct : Bool
  members : List ν
  active : List ν
  members_quorum : ackQuorum ≤ members.length
  bootId : ι
  blank : ι → Bool

inductive RequestPoint where
  | calling
  | locked
  | reconciled
  /-- The fence was open and the locks are dropped; the request is not counted yet. -/
  | admitted
  | inFlight
  | completed
  | refused
deriving DecidableEq, Repr

inductive BeginPoint (ι : Type) where
  | calling
  | locked
  | reconciled
  | fencing (token : Marker ι)
  /-- Every fence request has ended. -/
  | fenced (token : Marker ι) (allFenced : Bool)
  | draining (result : Except ReplicaError (Marker ι))
  | returned (result : Except ReplicaError (Marker ι))
deriving DecidableEq, Repr

inductive EndPoint where
  | calling
  | locked
  | releasing
  | released (all : Bool)
  | returned (result : Except ReplicaError Unit)
deriving DecidableEq, Repr

inductive OperationPoint where
  | calling
  | locked
  | running
  | completed
  | refused (error : ReplicaError)
deriving DecidableEq, Repr

inductive Task (ι : Type) where
  | append (point : RequestPoint)
  | read (point : RequestPoint)
  | begin (anonymous : Bool) (owner : ι) (point : BeginPoint ι)
  | endMaintenance (token : Marker ι) (point : EndPoint)
  | operation (token : Marker ι) (point : OperationPoint)
deriving DecidableEq, Repr

inductive Event where
  /-- An append passed the fence check. -/
  | admitted (request : Nat)
  /-- `admit_append` returned `Ok`. -/
  | entered (request : Nat)
  | completed (request : Nat)
  /-- A begin call installed its fence on the gateway. -/
  | fenced (call : Nat)
  /-- A begin call returned `Ok`. -/
  | returned (call : Nat)
  /-- A release cleared a member's marker. -/
  | released
deriving DecidableEq, Repr

/-- One gateway process with the marker files of its members. `events` is kept for the proofs,
newest first. -/
structure Gateway (ι ν : Type) where
  transition : Option Nat
  fence : LocalMaintenanceState ι
  active : Nat
  activeRequests : Nat
  operations : Nat
  nextFence : Nat
  nodes : ν → DurableMaintenanceState ι
  tasks : List (Task ι)
  events : List Event

/-- What the network and the clock do during one step: the members a request reaches, those whose
answer comes back, and the time. -/
structure Reply (ν : Type) where
  delivered : ν → Bool
  answered : ν → Bool
  unixTimeMs : Nat

inductive Step (ι ν : Type) where
  | call (task : Task ι)
  | resume (i : Nat) (reply : Reply ν)

namespace Gateway

variable {ν : Type} (config : GatewayConfig ι ν)

def new : Gateway ι ν := ⟨none, .open, 0, 0, 0, 1, fun _ => .initial, [], []⟩

def goto (s : Gateway ι ν) (i : Nat) (task : Task ι) : Gateway ι ν :=
  { s with tasks := s.tasks.set i task }

def leave (s : Gateway ι ν) (i : Nat) (task : Task ι) : Gateway ι ν :=
  { s with transition := none, tasks := s.tasks.set i task }

def lockTransition (s : Gateway ι ν) (i : Nat) (task : Task ι) : Option (Gateway ι ν) :=
  if s.transition = none then some { s with transition := some i, tasks := s.tasks.set i task }
  else none

def fetchDurableStatuses (s : Gateway ι ν) (reply : Reply ν) : List (StorageNodeStatus ι) :=
  (config.members.filter reply.answered).map fun n => (s.nodes n).status

def reconcileDurableFence (s : Gateway ι ν) (reply : Reply ν) :
    Except ReplicaError (DurableFenceObservation ι) × LocalMaintenanceState ι :=
  applyDurableObservation config.blank s.fence (s.fetchDurableStatuses config reply)
    config.members.length

/-- A request to every member. One that is not reached keeps its marker, one whose answer is lost
does not. -/
def broadcast (s : Gateway ι ν) (reply : Reply ν)
    (serve : DurableMaintenanceState ι → Except ReplicaError (DurableMaintenanceState ι)) :
    ν → DurableMaintenanceState ι :=
  fun n => if reply.delivered n = true then (serve (s.nodes n)).toOption.getD (s.nodes n)
    else s.nodes n

def allAnswered (s : Gateway ι ν) (reply : Reply ν)
    (serve : DurableMaintenanceState ι → Except ReplicaError (DurableMaintenanceState ι)) : Bool :=
  config.members.all fun n =>
    reply.delivered n && reply.answered n && (serve (s.nodes n)).toOption.isSome

/-- The fence check of `admit_append` and its first increment, in one critical section. -/
def checkFence (s : Gateway ι ν) (i : Nat) (transition : Option Nat) : Gateway ι ν :=
  if s.fence = .open then
    { s with
      transition := transition, active := s.active + 1,
      tasks := s.tasks.set i (.append .admitted), events := .admitted i :: s.events }
  else { s with transition := transition, tasks := s.tasks.set i (.append .refused) }

def stepAppend (s : Gateway ι ν) (i : Nat) (reply : Reply ν) :
    RequestPoint → Option (Gateway ι ν)
  | .calling =>
    if config.direct = true then some (s.checkFence i s.transition)
    else s.lockTransition i (.append .locked)
  | .locked =>
    match s.reconcileDurableFence config reply with
    | (.error _, fence) => some ({ s with fence := fence }.leave i (.append .refused))
    | (.ok _, fence) => some ({ s with fence := fence }.goto i (.append .reconciled))
  | .reconciled => some (s.checkFence i none)
  | .admitted =>
    some { s with
      activeRequests := s.activeRequests + 1,
      tasks := s.tasks.set i (.append .inFlight), events := .entered i :: s.events }
  | .inFlight =>
    some { s with
      activeRequests := s.activeRequests - 1, active := s.active - 1,
      tasks := s.tasks.set i (.append .completed), events := .completed i :: s.events }
  | .completed => none
  | .refused => none

def stepRead (s : Gateway ι ν) (i : Nat) (reply : Reply ν) : RequestPoint → Option (Gateway ι ν)
  | .calling => s.lockTransition i (.read .locked)
  | .locked =>
    match s.reconcileDurableFence config reply with
    | (.error _, fence) => some ({ s with fence := fence }.leave i (.read .refused))
    | (.ok _, fence) => some ({ s with fence := fence }.goto i (.read .reconciled))
  | .reconciled =>
    if s.fence = .open then
      some ({ s with activeRequests := s.activeRequests + 1 }.leave i (.read .inFlight))
    else some (s.leave i (.read .refused))
  | .inFlight =>
    some ({ s with activeRequests := s.activeRequests - 1 }.goto i (.read .completed))
  | .admitted => none
  | .completed => none
  | .refused => none

/-- The acquisition after the statuses are in: resume the marker that is there, or issue a new
generation. -/
def acquire (s : Gateway ι ν) (i : Nat) (reply : Reply ν) (anonymous : Bool) (owner : ι) :
    Gateway ι ν :=
  let go := Task.begin anonymous owner
  let statuses := s.fetchDurableStatuses config reply
  if config.active.length < ackQuorum then
    { s with fence := s.fence.setUnknown }.leave i (go (.draining (.error .quorumUnavailable)))
  else
    match observeDurableFence config.blank statuses with
    | .error e => { s with fence := s.fence.setUnknown }.leave i (go (.draining (.error e)))
    | .ok observation =>
      match observation.active with
      | some pair =>
        match applyDurableObservation config.blank s.fence statuses config.members.length with
        | (.error e, fence) => { s with fence := fence }.leave i (go (.returned (.error e)))
        | (.ok _, fence) =>
          if owner ≠ pair.owner ∨ (anonymous = true ∧ observation.complete = true) then
            { s with fence := fence }.leave i (go (.draining (.error .lsnConflict)))
          else
            match issueMaintenanceToken config.blank pair.owner pair.generation with
            | .error e => { s with fence := fence }.leave i (go (.returned (.error e)))
            | .ok token =>
              { s with fence := fence, nextFence := pair.generation }.goto i (go (.fencing token))
      | none =>
        if observation.fencedStorage = 0 ∧ observation.complete = false ∧ statuses ≠ [] then
          { s with fence := s.fence.setUnknown }.leave i
            (go (.draining (.error .quorumUnavailable)))
        else
          let generation := max (max observation.generation s.nextFence) reply.unixTimeMs
          if u64Max ≤ generation then
            s.leave i (go (.returned (.error (.protocol "maintenance generation exhausted"))))
          else
            match issueMaintenanceToken config.blank owner (generation + 1) with
            | .error e =>
              { s with nextFence := generation + 1 }.leave i (go (.returned (.error e)))
            | .ok token => { s with nextFence := generation + 1 }.goto i (go (.fencing token))

def stepBegin (s : Gateway ι ν) (i : Nat) (reply : Reply ν) (anonymous : Bool) (owner : ι) :
    BeginPoint ι → Option (Gateway ι ν)
  | .calling => s.lockTransition i (.begin anonymous owner .locked)
  | .locked =>
    match s.reconcileDurableFence config reply with
    | (.error e, fence) =>
      some ({ s with fence := fence }.leave i (.begin anonymous owner (.returned (.error e))))
    | (.ok _, fence) =>
      if LocalMaintenanceState.grants owner fence = true then
        some ({ s with fence := fence }.goto i (.begin anonymous owner .reconciled))
      else
        some ({ s with fence := fence }.leave i
          (.begin anonymous owner (.returned (.error .lsnConflict))))
  | .reconciled => some (s.acquire config i reply anonymous owner)
  | .fencing token =>
    some ({ s with nodes := s.broadcast reply (·.fence token) }.goto i
      (.begin anonymous owner (.fenced token (s.allAnswered config reply (·.fence token)))))
  | .fenced token allFenced =>
    some { s with
      fence := .fenced token, transition := none,
      tasks := s.tasks.set i (.begin anonymous owner
        (.draining (if allFenced = true then .ok token else .error .quorumUnavailable))),
      events := .fenced i :: s.events }
  | .draining result =>
    if s.activeRequests ≠ 0 then none
    else
      some { s with
        tasks := s.tasks.set i (.begin anonymous owner (.returned result)),
        events := if result.toOption.isSome = true then .returned i :: s.events else s.events }
  | .returned _ => none

def clears (s : Gateway ι ν) (reply : Reply ν) (token : Marker ι) : Bool :=
  config.members.any fun n =>
    (s.nodes n).active.isSome && (s.broadcast reply (·.releaseFence token) n).active.isNone

def stepEnd (s : Gateway ι ν) (i : Nat) (reply : Reply ν) (token : Marker ι) :
    EndPoint → Option (Gateway ι ν)
  | .calling => s.lockTransition i (.endMaintenance token .locked)
  | .locked =>
    match s.reconcileDurableFence config reply with
    | (.error e, fence) =>
      some ({ s with fence := fence }.leave i (.endMaintenance token (.returned (.error e))))
    | (.ok _, fence) =>
      if fence ≠ .fenced token then
        some ({ s with fence := fence }.leave i
          (.endMaintenance token (.returned (.error .gatewayUnauthorized))))
      else if s.operations ≠ 0 then
        some ({ s with fence := fence }.leave i
          (.endMaintenance token (.returned (.error .lsnConflict))))
      else some ({ s with fence := fence }.goto i (.endMaintenance token .releasing))
  | .releasing =>
    some { s with
      nodes := s.broadcast reply (·.releaseFence token),
      tasks := s.tasks.set i
        (.endMaintenance token (.released (s.allAnswered config reply (·.releaseFence token)))),
      events := if s.clears config reply token = true then .released :: s.events else s.events }
  | .released all =>
    if all = true then
      some ({ s with fence := .open }.leave i (.endMaintenance token (.returned (.ok ()))))
    else some (s.leave i (.endMaintenance token (.returned (.error .nodeUnavailable))))
  | .returned _ => none

def stepOperation (s : Gateway ι ν) (i : Nat) (reply : Reply ν) (token : Marker ι) :
    OperationPoint → Option (Gateway ι ν)
  | .calling => s.lockTransition i (.operation token .locked)
  | .locked =>
    match s.reconcileDurableFence config reply with
    | (.error e, fence) => some ({ s with fence := fence }.leave i (.operation token (.refused e)))
    | (.ok _, fence) =>
      if fence ≠ .fenced token then
        some ({ s with fence := fence }.leave i
          (.operation token (.refused .gatewayUnauthorized)))
      else
        some ({ s with fence := fence, operations := s.operations + 1 }.leave i
          (.operation token .running))
  | .running =>
    some ({ s with operations := s.operations - 1 }.goto i (.operation token .completed))
  | .completed => none
  | .refused _ => none

def starts : Task ι → Bool
  | .append point => point = .calling
  | .read point => point = .calling
  | .begin anonymous owner point =>
    point = .calling && if anonymous then owner = config.bootId else !config.blank owner
  | .endMaintenance _ point => point = .calling
  | .operation _ point => point = .calling

def step (s : Gateway ι ν) : Step ι ν → Option (Gateway ι ν)
  | .call task =>
    if starts config task = true then some { s with tasks := s.tasks ++ [task] } else none
  | .resume i reply =>
    s.tasks[i]?.bind fun
      | .append point => s.stepAppend config i reply point
      | .read point => s.stepRead config i reply point
      | .begin anonymous owner point => s.stepBegin config i reply anonymous owner point
      | .endMaintenance token point => s.stepEnd config i reply token point
      | .operation token point => s.stepOperation config i reply token point

end Gateway

end Walleye.Admission
