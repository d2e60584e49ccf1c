import Walleye.Ownership.Lease

namespace Walleye.Ownership

structure Seen where
  version : Nat
  firstSeen : Nat
deriving DecidableEq, Repr

/-- A call of `sample`: before its listing of the leases, between the listing and the
bookkeeping, and while it deletes what it found expired. -/
inductive Sampling where
  | begun (before : Nat)
  | listed (before listedAt : Nat) (present : Node → Option Nat)
  | expiring (before listedAt : Nat) (expired : Node → Bool)

structure Observer where
  seen : Node → Option Seen
  sampling : Option Sampling

def Observer.new : Observer := ⟨fun _ => none, none⟩

/-- One version of a table's ownership record. A released table names nobody. -/
structure OwnerRecord (α : Type) where
  node : Option Node
  epoch : Nat
  alarms : α
  nextSeq : Option Nat
deriving DecidableEq, Repr

structure Held (α : Type) where
  seq : Nat
  epoch : Nat
  alarms : α
deriving DecidableEq, Repr

/-- What a claim goes by: the newest version it read, and the session it claims for. -/
structure Claim (α : Type) where
  seq : Nat
  prior : Option (OwnerRecord α)
  me : Node
deriving DecidableEq, Repr

/-- Whose write of a record version it is; a claim remembers the arrival number that
the release before it left. -/
inductive WriteKind where
  | claim (handed : Option Nat)
  | update
  | release
deriving DecidableEq, Repr

structure VersionPut (α : Type) where
  seq : Nat
  record : OwnerRecord α
  me : Node
  kind : WriteKind
  created : Option Bool
deriving DecidableEq, Repr

inductive Op (α : Type) where
  | listing
  | reading (seq : Nat)
  | judging (claim : Claim α) (owner : Node)
  | probing (claim : Claim α) (owner : Node) (before : Nat)
  | got (claim : Claim α) (owner : Node) (before version : Nat)
  | weighing (claim : Claim α) (owner : Node) (before version : Nat)
  | judged (claim : Claim α)
  | writing (put : Nat)
  | created (put : Nat)
  | confirmed (put : Nat)
deriving DecidableEq, Repr

structure Holder (α : Type) where
  held : Option (Held α)
  handedSeq : Option Nat
  op : Option (Op α)
deriving DecidableEq, Repr

def Holder.new {α : Type} : Holder α := ⟨none, none, none⟩

/-- One table's ownership record: its versions with the highest a listing shows, the writes made to
it, and what each process keeps of it. -/
structure Records (α : Type) where
  versions : Nat → Option (OwnerRecord α)
  newest : Nat
  puts : Nat → Option (VersionPut α)
  holders : Nat → Holder α

def Records.empty {α : Type} : Records α := ⟨fun _ => none, 0, fun _ => none, fun _ => .new⟩

/-- Processes that share a bucket: its leases, what each has seen of them, and the
ownership records of the tables. -/
structure Cluster (τ α : Type) where
  leases : Leases
  observers : Nat → Observer
  records : τ → Records α

def Cluster.empty {τ α : Type} : Cluster τ α := ⟨.empty, fun _ => .new, fun _ => .empty⟩

inductive OwnershipStep (τ α : Type) where
  | tick (d : Nat)
  | authority (p : Nat)
  | renew (p i issued : Nat)
  | landRenewal (i : Nat)
  | answerRenewal (i : Nat)
  | failRenewal (i : Nat)
  | drain (p : Nat)
  | retire (p : Nat)
  | landDelete (n : Node)
  | dropDelete (n : Node)
  | sample (p : Nat)
  | listLeases (p : Nat)
  | noteLeases (p : Nat)
  | expire (p : Nat) (n : Node)
  | claim (p : Nat) (t : τ)
  | listVersions (p : Nat) (t : τ)
  | readVersion (p : Nat) (t : τ)
  | judge (p : Nat) (t : τ)
  | getLease (p : Nat) (t : τ)
  | noteLease (p : Nat) (t : τ)
  | weigh (p : Nat) (t : τ)
  | writeClaim (p : Nat) (t : τ) (i : Nat)
  | setEpoch (p : Nat) (t : τ) (i epoch : Nat)
  | updateAlarms (p : Nat) (t : τ) (i : Nat) (alarms : α)
  | release (p : Nat) (t : τ) (i : Nat) (nextSeq : Option Nat)
  | landVersion (t : τ) (i : Nat)
  | answerVersion (p : Nat) (t : τ)
  | listWritten (p : Nat) (t : τ)
  | finish (p : Nat) (t : τ)
  | fail (p : Nat) (t : τ)
  | collect (t : τ) (v : Nat)
deriving DecidableEq, Repr

section Observers

variable (c : LeaseConfig)

/-- What `sample` keeps of a lease its listing showed: a version it knew keeps its date,
a new one is dated from the listing. -/
def Observer.note (o : Observer) (listedAt : Nat) (present : Node → Option Nat) (n : Node) :
    Option Seen :=
  match present n with
  | none => none
  | some v =>
    match o.seen n with
    | some w => if w.version = v then some w else some ⟨v, listedAt⟩
    | none => some ⟨v, listedAt⟩

/-- The lease has shown one version for a verdict, judged at `before`. -/
def Seen.expired (w : Seen) (before : Nat) : Bool := decide (c.verdict ≤ before - w.firstSeen)

/-- `sample` after its listing: every lease it shows is dated, and others' leases that are a verdict
old are to be deleted. -/
def Observer.noteLeases (o : Observer) (mine : Node) : Option Observer :=
  match o.sampling with
  | some (.listed before listedAt present) =>
    some ⟨o.note listedAt present, some (.expiring before listedAt fun n =>
      decide (n ≠ mine) && (o.note listedAt present n).any fun w => w.expired c before)⟩
  | _ => none

def Observer.noteLease (o : Observer) (n : Node) (version now : Nat) : Observer :=
  match o.seen n with
  | some w => if w.version = version then o
    else { o with seen := Function.update o.seen n (some ⟨version, now⟩) }
  | none => { o with seen := Function.update o.seen n (some ⟨version, now⟩) }

end Observers

section Records

variable {α : Type}

def Records.setHolder (r : Records α) (p : Nat) (h : Holder α) : Records α :=
  { r with holders := Function.update r.holders p h }

def Records.setOp (r : Records α) (p : Nat) (op : Option (Op α)) : Records α :=
  r.setHolder p { r.holders p with op := op }

theorem Records.setOp_held {r : Records α} :
    ((r.setOp p op).holders q).held = (r.holders q).held := by
  by_cases h : q = p
  · subst h
    simp [Records.setOp,Records.setHolder]
  · simp [Records.setOp,Records.setHolder,h]

theorem Records.setOp_op {r : Records α} : ((r.setOp p op).holders p).op = op := by
  simp [Records.setOp,Records.setHolder]

theorem Records.setOp_other {r : Records α} (h : q ≠ p) :
    ((r.setOp p op).holders q).op = (r.holders q).op := by
  simp [Records.setOp,Records.setHolder,h]

def Records.dropHeld (r : Records α) (p : Nat) : Records α :=
  r.setHolder p { r.holders p with held := none }

def Records.write (r : Records α) (p i : Nat) (put : VersionPut α) : Records α :=
  { r.setOp p (some (.writing i)) with puts := Function.update r.puts i (some put) }

def Records.listVersions (r : Records α) (p : Nat) : Option (Records α) :=
  match (r.holders p).op with
  | some .listing => some (r.setOp p (some (.reading r.newest)))
  | _ => none

/-- Reads the version listed. One that was collected is looked up again; one that names another
session is judged by its lease. -/
def Records.readVersion (r : Records α) (p : Nat) (me : Node) : Option (Records α) :=
  match (r.holders p).op with
  | some (.reading seq) =>
    if seq = 0 then some (r.setOp p (some (.judged ⟨0, none, me⟩)))
    else match r.versions seq with
      | none => some (r.setOp p (some .listing))
      | some record =>
        match record.node with
        | none => some (r.setOp p (some (.judged ⟨seq, some record, me⟩)))
        | some owner =>
          if owner = me then some (r.setOp p (some (.judged ⟨seq, some record, me⟩)))
          else some (r.setOp p (some (.judging ⟨seq, some record, me⟩ owner)))
  | _ => none

/-- `liveness` knows the sessions its own process stood down. -/
def Records.judge (r : Records α) (p : Nat) (dead : List Node) (now : Nat) : Option (Records α) :=
  match (r.holders p).op with
  | some (.judging k owner) =>
    some (r.setOp p (some (if owner ∈ dead then .judged k else .probing k owner now)))
  | _ => none

/-- A conditional write takes effect: it creates its version unless that exists. -/
def Records.landVersion (r : Records α) (i : Nat) : Option (Records α) :=
  match r.puts i with
  | some put =>
    if put.created ≠ none then none
    else if r.versions put.seq = none then
      some { r with
        versions := Function.update r.versions put.seq (some put.record)
        newest := max r.newest put.seq
        puts := Function.update r.puts i (some { put with created := some true }) }
    else
      some { r with puts := Function.update r.puts i (some { put with created := some false }) }
  | none => none

/-- The call lost the race for its version. An update then no longer holds the table. -/
def Records.lose (r : Records α) (p : Nat) (kind : WriteKind) : Records α :=
  match kind with
  | .update => (r.setOp p none).dropHeld p
  | _ => r.setOp p none

/-- The caller of `write_version` hears of its conditional write. -/
def Records.answerVersion (r : Records α) (p : Nat) : Option (Records α) :=
  match (r.holders p).op with
  | some (.writing i) =>
    match r.puts i with
    | some put =>
      match put.created with
      | some true => some (r.setOp p (some (.created i)))
      | some false => some (r.lose p put.kind)
      | none => none
    | none => none
  | _ => none

def Records.listWritten (r : Records α) (p : Nat) : Option (Records α) :=
  match (r.holders p).op with
  | some (.created i) =>
    match r.puts i with
    | some put =>
      some (if r.newest = put.seq then r.setOp p (some (.confirmed i)) else r.lose p put.kind)
    | none => none
  | _ => none

/-- What the call does once its write counts, in session `me`. -/
def Records.finish (r : Records α) (p : Nat) (me : Node) : Option (Records α) :=
  match (r.holders p).op with
  | some (.confirmed i) =>
    match r.puts i with
    | some put =>
      let held : Held α := ⟨put.seq, put.record.epoch, put.record.alarms⟩
      match put.kind with
      | .claim handed =>
        some (if me = put.me then r.setHolder p ⟨some held, handed, none⟩ else r.setOp p none)
      | .update =>
        some (if me = put.me then r.setHolder p ⟨some held, (r.holders p).handedSeq, none⟩
          else (r.setOp p none).dropHeld p)
      | .release => some (r.setOp p none)
    | none => none
  | _ => none

def Records.collect (r : Records α) (v : Nat) : Option (Records α) :=
  if v + 1 < r.newest then some { r with versions := Function.update r.versions v none } else none

/-- The write a claim makes: the record it read, in its own name. -/
def Claim.put [Inhabited α] (k : Claim α) : VersionPut α where
  seq := k.seq + 1
  record :=
    { node := some k.me
      epoch := k.prior.elim 0 (·.epoch)
      alarms := k.prior.elim default (·.alarms)
      nextSeq := none }
  me := k.me
  kind := .claim ((k.prior.filter (·.node.isNone)).bind (·.nextSeq))
  created := none

def Held.update (h : Held α) (me : Node) (epoch : Nat) (alarms : α) : VersionPut α :=
  ⟨h.seq + 1, ⟨some me, epoch, alarms, none⟩, me, .update, none⟩

def Held.release (h : Held α) (me : Node) (nextSeq : Option Nat) : VersionPut α :=
  ⟨h.seq + 1, ⟨none, h.epoch, h.alarms, nextSeq⟩, me, .release, none⟩

end Records

section Cluster

variable {τ α : Type} (c : LeaseConfig)

def Cluster.holds (s : Cluster τ α) (p : Nat) (t : τ) : Option Nat :=
  if s.leases.authoritative c p then ((s.records t).holders p).held.map (·.epoch) else none

/-- A lapse found when authority is looked at stands the session down: a new session
starts, and no table is held any more. -/
def Cluster.authoritativeLocked (s : Cluster τ α) (p : Nat) : Cluster τ α :=
  { s with
    leases := s.leases.authoritativeLocked c p
    records := if s.leases.lapsed c p then fun t => (s.records t).dropHeld p else s.records }

def Cluster.renew (s : Cluster τ α) (p i issued : Nat) : Option (Cluster τ α) :=
  (s.leases.renew c p i issued).map fun l => { s.authoritativeLocked c p with leases := l }

def Cluster.setObserver (s : Cluster τ α) (p : Nat) (o : Observer) : Cluster τ α :=
  { s with observers := Function.update s.observers p o }

def Cluster.sample (s : Cluster τ α) (p : Nat) : Cluster τ α :=
  s.setObserver p { s.observers p with sampling := some (.begun s.leases.now) }

def Cluster.listLeases (s : Cluster τ α) (p : Nat) : Option (Cluster τ α) :=
  match (s.observers p).sampling with
  | some (.begun before) => some (s.setObserver p
      { s.observers p with sampling := some (.listed before s.leases.now s.leases.leases) })
  | _ => none

/-- The delete of a lease that `sample` found expired goes out. -/
def Cluster.expire (s : Cluster τ α) (p : Nat) (n : Node) : Option (Cluster τ α) :=
  match (s.observers p).sampling with
  | some (.expiring _ _ expired) =>
    if expired n then some { s with leases := s.leases.delete n } else none
  | _ => none

variable [DecidableEq τ]

def Cluster.setRecords (s : Cluster τ α) (t : τ) (r : Records α) : Cluster τ α :=
  { s with records := Function.update s.records t r }

/-- `claim` takes the table's writing lock, unless the process owns the table. -/
def Cluster.claim (s : Cluster τ α) (p : Nat) (t : τ) : Option (Cluster τ α) :=
  if ((s.records t).holders p).op = none ∧ s.holds c p t = none then
    some (s.setRecords t ((s.records t).setOp p (some .listing)))
  else none

/-- `liveness` reads the owner's lease. One that is gone ends the session it names. -/
def Cluster.getLease (s : Cluster τ α) (p : Nat) (t : τ) : Option (Cluster τ α) :=
  match ((s.records t).holders p).op with
  | some (.probing k owner before) =>
    match s.leases.leases owner with
    | some version =>
      some (s.setRecords t ((s.records t).setOp p (some (.got k owner before version))))
    | none =>
      let o := s.observers p
      some ((s.setObserver p { o with seen := Function.update o.seen owner none }).setRecords t
        ((s.records t).setOp p (some (.judged k))))
  | _ => none

def Cluster.noteLease (s : Cluster τ α) (p : Nat) (t : τ) : Option (Cluster τ α) :=
  match ((s.records t).holders p).op with
  | some (.got k owner before version) =>
    some ((s.setObserver p ((s.observers p).noteLease owner version s.leases.now)).setRecords t
      ((s.records t).setOp p (some (.weighing k owner before version))))
  | _ => none

/-- `liveness` looks the lease up again and weighs it: one it no longer finds counts as
gone, one a verdict old as lapsed, and any other refuses the claim. -/
def Cluster.weigh (s : Cluster τ α) (p : Nat) (t : τ) : Option (Cluster τ α) :=
  match ((s.records t).holders p).op with
  | some (.weighing k owner before _) =>
    match (s.observers p).seen owner with
    | none => some (s.setRecords t ((s.records t).setOp p (some (.judged k))))
    | some w => some (s.setRecords t ((s.records t).setOp p
        (if w.expired c before then some (.judged k) else none)))
  | _ => none

def Cluster.writeClaim [Inhabited α] (s : Cluster τ α) (p : Nat) (t : τ) (i : Nat) :
    Option (Cluster τ α) :=
  match ((s.records t).holders p).op with
  | some (.judged k) =>
    if (s.records t).puts i ≠ none then none
    else
      let s := s.authoritativeLocked c p
      if s.leases.authoritative c p ∧ (s.leases.sessions p).draining = false then
        some (s.setRecords t ((s.records t).write p i k.put))
      else some (s.setRecords t ((s.records t).setOp p none))
  | _ => none

/-- An owner writes its own record: `set_epoch` and `update_alarms`. -/
def Cluster.update (s : Cluster τ α) (p : Nat) (t : τ) (i : Nat)
    (put : Held α → Node → Option (VersionPut α)) : Option (Cluster τ α) :=
  if ((s.records t).holders p).op = none ∧ (s.records t).puts i = none ∧
      s.leases.authoritative c p then do
    let held ← ((s.records t).holders p).held
    let put ← put held (s.leases.node p)
    some (s.setRecords t ((s.records t).write p i put))
  else none

def Cluster.setEpoch (s : Cluster τ α) (p : Nat) (t : τ) (i epoch : Nat) :
    Option (Cluster τ α) :=
  s.update c p t i fun held me =>
    if held.epoch = epoch then none else some (held.update me epoch held.alarms)

def Cluster.updateAlarms (s : Cluster τ α) (p : Nat) (t : τ) (i : Nat) (alarms : α) :
    Option (Cluster τ α) :=
  s.update c p t i fun held me => some (held.update me held.epoch alarms)

def Cluster.release (s : Cluster τ α) (p : Nat) (t : τ) (i : Nat) (nextSeq : Option Nat) :
    Option (Cluster τ α) :=
  if ((s.records t).holders p).op = none ∧ (s.records t).puts i = none then do
    let held ← ((s.records t).holders p).held
    some (s.setRecords t
      (((s.records t).dropHeld p).write p i (held.release (s.leases.node p) nextSeq)))
  else none

variable [Inhabited α]

def Cluster.step (s : Cluster τ α) : OwnershipStep τ α → Option (Cluster τ α)
  | .tick d => some { s with leases := s.leases.tick d }
  | .authority p => some (s.authoritativeLocked c p)
  | .renew p i issued => s.renew c p i issued
  | .landRenewal i => (s.leases.landRenewal i).map fun l => { s with leases := l }
  | .answerRenewal i => (s.leases.answerRenewal c i).map fun l => { s with leases := l }
  | .failRenewal i => (s.leases.failRenewal i).map fun l => { s with leases := l }
  | .drain p => some { s with leases := s.leases.drain p }
  | .retire p => some { s with leases := s.leases.retire p }
  | .landDelete n => (s.leases.landDelete n).map fun l => { s with leases := l }
  | .dropDelete n => some { s with leases := s.leases.dropDelete n }
  | .sample p => some (s.sample p)
  | .listLeases p => s.listLeases p
  | .noteLeases p => ((s.observers p).noteLeases c (s.leases.node p)).map (s.setObserver p)
  | .expire p n => s.expire p n
  | .claim p t => s.claim c p t
  | .listVersions p t => ((s.records t).listVersions p).map (s.setRecords t)
  | .readVersion p t => ((s.records t).readVersion p (s.leases.node p)).map (s.setRecords t)
  | .judge p t =>
    ((s.records t).judge p (s.leases.sessions p).dead s.leases.now).map (s.setRecords t)
  | .getLease p t => s.getLease p t
  | .noteLease p t => s.noteLease p t
  | .weigh p t => s.weigh c p t
  | .writeClaim p t i => s.writeClaim c p t i
  | .setEpoch p t i epoch => s.setEpoch c p t i epoch
  | .updateAlarms p t i alarms => s.updateAlarms c p t i alarms
  | .release p t i nextSeq => s.release p t i nextSeq
  | .landVersion t i => ((s.records t).landVersion i).map (s.setRecords t)
  | .answerVersion p t => ((s.records t).answerVersion p).map (s.setRecords t)
  | .listWritten p t => ((s.records t).listWritten p).map (s.setRecords t)
  | .finish p t => ((s.records t).finish p (s.leases.node p)).map (s.setRecords t)
  | .fail p t => some (s.setRecords t ((s.records t).setOp p none))
  | .collect t v => ((s.records t).collect v).map (s.setRecords t)

def Cluster.Exclusive (s : Cluster τ α) : Prop :=
  ∀ t p q, (s.holds c p t).isSome → (s.holds c q t).isSome → p = q

/-- A lease may be expired: its session was stood down or retired, or counted a renewal
that was issued more than the skew before the sample began. -/
def Leases.Expirable (s : Leases) (n : Node) (before : Nat) : Prop :=
  s.node n.process ≠ n ∨ (s.sessions n.process).retired = true ∨
    ∃ a ∈ (s.sessions n.process).anchor, a + c.skew < before

def Cluster.Unmoved (s : Cluster τ α) (p : Nat) (t : τ) : Prop :=
  match ((s.records t).holders p).op with
  | some (.weighing _ owner _ version) =>
    ∃ w ∈ (s.observers p).seen owner, w.version = version
  | _ => True

def Leases.InSkew (s : Leases) (i : Nat) : Prop :=
  ∀ r ∈ s.renewals i, s.node r.node.process = r.node →
    ∀ l ∈ r.landed, l ≤ r.issued + c.skew

def Cluster.MayExpire (s : Cluster τ α) (p : Nat) (n : Node) : Prop :=
  match (s.observers p).sampling with
  | some (.expiring before _ _) => s.leases.Expirable c n before
  | _ => True

def Cluster.Timely (s : Cluster τ α) : OwnershipStep τ α → Prop
  | .answerRenewal i => s.leases.InSkew c i
  | .expire p n => s.MayExpire c p n
  | .weigh p t => s.Unmoved p t
  | _ => True

instance (s : Leases) (n : Node) (before : Nat) : Decidable (s.Expirable c n before) :=
  inferInstanceAs (Decidable (_ ∨ _ ∨ _))

instance (s : Leases) (i : Nat) : Decidable (s.InSkew c i) :=
  inferInstanceAs (Decidable (∀ r ∈ s.renewals i, _ → ∀ l ∈ r.landed, l ≤ r.issued + c.skew))

instance (s : Cluster τ α) (p : Nat) (n : Node) : Decidable (s.MayExpire c p n) := by
  unfold Cluster.MayExpire
  split <;> infer_instance

instance (s : Cluster τ α) (p : Nat) (t : τ) : Decidable (s.Unmoved p t) := by
  unfold Cluster.Unmoved
  split <;> infer_instance

instance (s : Cluster τ α) : DecidablePred (s.Timely c) := fun a => by
  unfold Cluster.Timely
  split <;> infer_instance

end Cluster

end Walleye.Ownership
