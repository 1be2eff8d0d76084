import Redpanda.Cluster.ProducerState
import Redpanda.Lib.ReplicatedLog
import Redpanda.Lib.Run

/-!
# Idempotent produce

The replicas of a partition, as far as one idempotent producer is concerned. A client may send
batches to any replica, in any order and repeatedly. The replica that was last synced in a term
takes them to be for that term (`receive`); they wait for the lock of the producer, in the order
they came. The one that holds the lock looks for a known request with its sequence numbers, and
otherwise becomes a request itself (`emplace`). Its batch is enqueued to the log if the replica
is still the leader in the term of the request (`enqueue`), which releases the lock. The outcome
of the replication comes later (`finish`), and a failure makes the leader step down. Batches that
are committed are applied by every replica, in order and at its own pace (`apply`).

A leader syncs by applying all of the log that it was elected with (`sync`), since the
configuration batch it then writes commits all of it. Replication succeeds when the batch is
committed, as idempotent producers ask for (`acks=all`).

The log is the one of this producer: the batches of others are between its own, which is why
the offsets that batches get may be any increasing ones.
-/

namespace Redpanda.Cluster

open Lib

/-! ## Replicas -/

/-- A batch that waits for the lock of its producer (`run_with_lock`). -/
structure Waiting where
  header : RecordBatchHeader
  expectedTerm : Nat
  /-- `producer_previously_known`. -/
  known : Bool

/-- The fiber that holds the lock: its request is in the queue, but not enqueued yet. -/
structure Holding where
  header : RecordBatchHeader
  request : Request

/-- A replica, with what it knows about the producer. -/
structure Replica where
  producer : Option ProducerState := none
  insyncTerm : Nat := 0
  /-- How many batches of the log are applied. -/
  applied : Nat := 0
  waiting : List Waiting := []
  holding : Option Holding := none
  /-- The requests whose batches are enqueued and not known to be replicated. -/
  replicating : List Request := []
  /-- The batches that were answered with (the result of) a request that was known. -/
  answers : List (BatchIdentity × Request) := []

/-- A batch in the log, with the replica and the request that wrote it. -/
structure Entry (ν : Type) where
  header : RecordBatchHeader
  origin : ν × Request
  deriving DecidableEq

/-- What a replica does. -/
inductive NodeAction
  | sync
  /-- A client sends a batch. -/
  | receive (h : RecordBatchHeader)
  | emplace
  /-- The batch is enqueued and gets its base offset, or it is not enqueued. -/
  | enqueue (baseOffset : Option Int)
  /-- The replication of the batch of a request succeeds, or it fails. -/
  | finish (q : Request) (success : Bool)
  | apply
  | stepDown

namespace Replica

variable {ν : Type} [DecidableEq ν] (x : Replica) (L : ReplicatedLog ν (Entry ν))

def requests : Requests := (x.producer.map (·.requests)).getD {}

theorem requests_eq {x : Replica} {p : ProducerState} (h : x.producer = some p) :
    x.requests = p.requests := by
  rw [requests, h]
  rfl

/-- `maybe_create_producer`. -/
def maybeCreateProducer (pid : ProducerIdentity) : ProducerState :=
  x.producer.getD { id := pid }

def modifyRequests (f : Requests → Requests) : Replica :=
  { x with producer := x.producer.map fun p => { p with requests := f p.requests } }

variable (n : ν)

/-- `sync`, which waits until the log of earlier terms is applied. -/
def sync : Option Replica :=
  if L.leader = some n ∧ L.start ≤ x.applied then
    if x.insyncTerm = L.term then some x
    else some { x.modifyRequests (·.gcRequestsFromOlderTerms L.term) with insyncTerm := L.term }
  else none

/-- `idempotent_replicate` until the lock. -/
def receive (h : RecordBatchHeader) : Option Replica :=
  if h.bid.isIdempotent ∧ ¬ h.isTransactional then
    some { x with
      producer := some (x.maybeCreateProducer h.bid.pid)
      waiting := x.waiting ++ [⟨h, x.insyncTerm, x.producer.isSome⟩] }
  else none

/-- Whether the sequence numbers of a batch are not checked, because its producer is unknown. -/
def Waiting.skipSequenceChecks (w : Waiting) : Bool := !w.known && 0 < w.header.bid.firstSeq

/-- `do_idempotent_replicate` until the request is known. -/
def emplaceRequest (p : ProducerState) (w : Waiting) :
    Option (ProducerState × Except Errc Request) :=
  (p.raiseEpoch w.header.bid.pid.epoch).map fun p =>
    p.tryEmplaceRequest w.header.bid w.expectedTerm (Waiting.skipSequenceChecks w)

/-- What becomes of a batch in `do_idempotent_replicate` when its request is known. -/
def proceed (h : RecordBatchHeader) : ProducerState × Except Errc Request → Replica
  | (p, .error _) => { x with producer := some p }
  | (p, .ok q) =>
    if (p.requests.states q.promise).isInitialized then
      { x with
        producer := some { p with requests := p.requests.markInProgress q }
        holding := some ⟨h, q⟩ }
    else { x with producer := some p, answers := (h.bid, q) :: x.answers }

/-- `do_idempotent_replicate` until the batch is replicated. -/
def emplace : Option Replica :=
  match x.holding, x.waiting, x.producer with
  | none, w :: ws, some p =>
    (emplaceRequest p w).map ({ x with waiting := ws }.proceed w.header)
  | _, _, _ => none

/-- `do_idempotent_replicate`: the batch is enqueued. -/
def enqueue (baseOffset : Option Int) : Option (ReplicatedLog ν (Entry ν) × Replica) :=
  match x.holding, baseOffset with
  | some d, some o =>
    if L.Leads n d.request.term ∧ ∀ e ∈ L.entries, e.header.lastOffset < o then
      some (L.append ⟨{ d.header with baseOffset := o, term := L.term }, n, d.request⟩,
        { x with holding := none, replicating := d.request :: x.replicating })
    else none
  | some d, none =>
    some (L.stepDown n d.request.term,
      { x.modifyRequests (·.setResult d.request (.error .replicationError)) with holding := none })
  | none, _ => none

/-- `do_idempotent_replicate` after the replication. -/
def finish (q : Request) (success : Bool) : Option (ReplicatedLog ν (Entry ν) × Replica) :=
  if q ∈ x.replicating then
    let x := { x with replicating := x.replicating.erase q }
    if success then
      ((L.entries.take L.committed).find? (·.origin = (n, q))).map fun e =>
        (L, x.modifyRequests
          (·.setResult q (.ok { lastOffset := e.header.lastOffset, lastTerm := e.header.term })))
    else
      some (L.stepDown n q.term, x.modifyRequests (·.setResult q (.error .replicationError)))
  else none

/-- `apply_data`, of the next batch that is committed. -/
def apply : Option Replica :=
  if x.applied < L.committed then do
    let e ← L.entries[x.applied]?
    let p ← (x.maybeCreateProducer e.header.bid.pid).applyData e.header e.header.lastOffset
    some { x with producer := some p, applied := x.applied + 1 }
  else none

/-- What an action of a replica does to the log and to the replica. -/
def act : NodeAction → Option (ReplicatedLog ν (Entry ν) × Replica)
  | .sync => (x.sync L n).map (L, ·)
  | .receive h => (x.receive h).map (L, ·)
  | .emplace => x.emplace.map (L, ·)
  | .enqueue o => x.enqueue L n o
  | .finish q success => x.finish L n q success
  | .apply => (x.apply L).map (L, ·)
  | .stepDown => some (L.stepDown n L.term, x)

variable {L L' : ReplicatedLog ν (Entry ν)} {n : ν} {x x' : Replica}

/-- What the actions of a replica do to the log: nothing, or it appends as the leader, or it
    steps down. -/
theorem act_log {a : NodeAction} (h : x.act L n a = some (L', x')) :
    L' = L ∨ (∃ t, L' = L.stepDown n t) ∨
      ∃ d o, x.holding = some d ∧ L.Leads n d.request.term ∧
        L' = L.append ⟨{ d.header with baseOffset := o, term := L.term }, n, d.request⟩ := by
  cases a with
  | sync | receive | emplace | apply =>
    obtain ⟨y, -, hy⟩ := Option.map_eq_some_iff.1 h
    exact .inl (Prod.mk.inj hy).1.symm
  | stepDown => exact .inr (.inl ⟨_, (Prod.mk.inj (Option.some.inj h)).1.symm⟩)
  | enqueue o =>
    simp only [act, enqueue] at h
    split at h
    · rename_i d o' hd
      obtain ⟨hcond, h⟩ := Option.ite_none_right_eq_some.1 h
      exact .inr (.inr ⟨d, o', hd, hcond.1, (Prod.mk.inj (Option.some.inj h)).1.symm⟩)
    · exact .inr (.inl ⟨_, (Prod.mk.inj (Option.some.inj h)).1.symm⟩)
    · exact nomatch h
  | finish q success =>
    simp only [act, finish] at h
    split at h
    · split at h
      · obtain ⟨e, -, he⟩ := Option.map_eq_some_iff.1 h
        exact .inl (Prod.mk.inj he).1.symm
      · exact .inr (.inl ⟨_, (Prod.mk.inj (Option.some.inj h)).1.symm⟩)
    · exact nomatch h

end Replica

/-! ## The partition -/

structure Partition (ν : Type) where
  log : ReplicatedLog ν (Entry ν) := {}
  replicas : ν → Replica := fun _ => {}

inductive Action (ν : Type)
  | node (n : ν) (a : NodeAction)
  /-- The first `k` batches of the log get committed. -/
  | commit (k : Nat)
  /-- A replica that has the first `k` batches is elected. -/
  | elect (n : ν) (k : Nat)

namespace Partition

variable {ν : Type} [DecidableEq ν] (σ : Partition ν)

def set (n : ν) (L : ReplicatedLog ν (Entry ν)) (x : Replica) : Partition ν :=
  ⟨L, Function.update σ.replicas n x⟩

def next : Action ν → Option (Partition ν)
  | .node n a => ((σ.replicas n).act σ.log n a).map fun y => σ.set n y.1 y.2
  | .commit k => some { σ with log := σ.log.commit k }
  | .elect n k => some { σ with log := σ.log.elect n k }

/-- The steps of a partition. -/
def Step (a : Action ν) (τ : Partition ν) : Prop := σ.next a = some τ

end Partition

/-! ### Parts of runs -/

/-- A batch with one record. -/
def recordAt (epoch sequence : Int) : RecordBatchHeader :=
  { producerId := 1, producerEpoch := epoch, baseSequence := sequence }

/-- A batch is sent and enqueued. -/
def produce {ν : Type} (n : ν) (h : RecordBatchHeader) (offset : Int) : List (Action ν) :=
  [.node n (.receive h), .node n .emplace, .node n (.enqueue (some offset))]

/-- A replica is elected and syncs. -/
def lead {ν : Type} (n : ν) (k : Nat) : List (Action ν) := [.elect n k, .node n .sync]

end Redpanda.Cluster
