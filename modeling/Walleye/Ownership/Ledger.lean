import Walleye.Ownership.Table

namespace Walleye.Ownership

variable {τ α : Type}

/-- What a call makes of the newest version of a table's record. -/
inductive Change (α : Type) where
  | claim (me : Node)
  | setEpoch (me : Node) (epoch : Nat)
  | updateAlarms (me : Node) (change : α → Option α)
  | release (nextSeq : Option Nat)

def Change.apply [Inhabited α] (below : Option (OwnerRecord α)) :
    Change α → Option (OwnerRecord α)
  | .claim me => some
      { node := some me
        epoch := below.elim 0 (·.epoch)
        alarms := below.elim default (·.alarms)
        nextSeq := none }
  | .setEpoch me epoch => below.map fun r => ⟨some me, epoch, r.alarms, none⟩
  | .updateAlarms me change =>
    below.bind fun r => (change r.alarms).map fun alarms => ⟨some me, r.epoch, alarms, none⟩
  | .release nextSeq => below.map fun r => ⟨none, r.epoch, r.alarms, nextSeq⟩

/-- A write of a version: the conditional put that made it, whose it is, and what it is made of. -/
structure Written (α : Type) where
  put : Nat
  process : Nat
  seq : Nat
  change : Change α
  record : OwnerRecord α

/-- What was written to a record: what each put meant to change, the versions that became the
newest, and those `write_version` answered true for. -/
structure Ledger (α : Type) where
  made : Nat → Option (Change α)
  stored : List (Written α)
  applied : List (Written α)

def Ledger.empty : Ledger α := ⟨fun _ => none, [], []⟩

def Ledger.version (l : Ledger α) : Nat → Option (OwnerRecord α)
  | 0 => none
  | k + 1 => l.stored[k]?.map (·.record)

def Ledger.make (l : Ledger α) (i : Nat) (change : Change α) : Ledger α :=
  { l with made := Function.update l.made i (some change) }

def Ledger.written (l : Ledger α) (r : Records α) (i : Nat) : Option (Written α) :=
  (r.puts i).bind fun put => (l.made i).map fun change =>
    ⟨i, put.me.process, put.seq, change, put.record⟩

/-- A put takes effect: a version above the newest is stored. -/
def Ledger.land (l : Ledger α) (r r' : Records α) (i : Nat) : Ledger α :=
  if r.newest < r'.newest then { l with stored := l.stored ++ (l.written r i).toList } else l

/-- A listing confirms the write of the call that process `p` makes. -/
def Ledger.confirm (l : Ledger α) (r' : Records α) (p : Nat) : Ledger α :=
  match (r'.holders p).op with
  | some (.confirmed i) => { l with applied := l.applied ++ (l.written r' i).toList }
  | _ => l

/-- Processes that share a bucket, with a ledger of every table's record. -/
structure Audited (τ α : Type) where
  cluster : Cluster τ α
  ledgers : τ → Ledger α

def Audited.empty : Audited τ α := ⟨.empty, fun _ => .empty⟩

inductive AuditedStep (τ α : Type) where
  | own (step : OwnershipStep τ α)
  | updateAlarms (p : Nat) (t : τ) (i : Nat) (change : α → Option α)

section Step

variable [DecidableEq τ] [Inhabited α] (c : LeaseConfig)

def Audited.note (s : Audited τ α) (cluster : Cluster τ α) (t : τ) (l : Ledger α) : Audited τ α :=
  ⟨cluster, Function.update s.ledgers t l⟩

def Audited.follow (s : Audited τ α) (cluster : Cluster τ α) : OwnershipStep τ α → Audited τ α
  | .writeClaim _ t i =>
    match (cluster.records t).puts i with
    | some put => s.note cluster t ((s.ledgers t).make i (.claim put.me))
    | none => ⟨cluster, s.ledgers⟩
  | .setEpoch p t i epoch =>
    s.note cluster t ((s.ledgers t).make i (.setEpoch (s.cluster.leases.node p) epoch))
  | .release _ t i nextSeq => s.note cluster t ((s.ledgers t).make i (.release nextSeq))
  | .landVersion t i =>
    s.note cluster t ((s.ledgers t).land (s.cluster.records t) (cluster.records t) i)
  | .listWritten p t => s.note cluster t ((s.ledgers t).confirm (cluster.records t) p)
  | _ => ⟨cluster, s.ledgers⟩

def Audited.step (s : Audited τ α) : AuditedStep τ α → Option (Audited τ α)
  | .own (.updateAlarms _ _ _ _) => none
  | .own a => (s.cluster.step c a).map fun cluster => s.follow cluster a
  | .updateAlarms p t i change =>
    ((s.cluster.records t).holders p).held.bind fun held =>
      (change held.alarms).bind fun alarms =>
        (s.cluster.updateAlarms c p t i alarms).map fun cluster =>
          s.note cluster t
            ((s.ledgers t).make i (.updateAlarms (s.cluster.leases.node p) change))

end Step

end Walleye.Ownership
