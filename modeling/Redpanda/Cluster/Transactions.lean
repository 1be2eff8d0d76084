import Redpanda.Cluster.TransactionLog
import Redpanda.Lib.ReplicatedLog
import Redpanda.Lib.Run

/-!
# Transactions on a partition

The replicas of a partition and the operations on transactions. Requests from coordinators and
clients come to any replica, in any order and repeatedly. One that finds the replica synced in a
term makes its producer known (`create`) and waits for the lock of the producer. With the lock it
looks at the producer, and either answers or has a batch to write: `beginTx` a fence, after
the marker for a transaction of an older epoch that is still open, `commitTx` and `abortTx` a
marker, and `data` a batch. Transactions that have expired are ended by the replica (`expire`),
which asks the coordinator first (`coordinator`).

A batch is replicated if the replica is the leader in the term of the operation (`enqueue`). The
operation goes on when the batch is applied (`finish`). It may fail at any time before, although
its batch is in the log; the leader then steps down before the lock is released (`fail`),
except for data. `begin_tx` holds the LSO lock all the time, which a reader of the last stable
offset needs (`lastStableOffset`).

The log is the one of the leader, and what is committed of it stays. Committed stands for what a
majority has, so it bounds what is visible on any replica, as well as what is applied.
-/

namespace Redpanda.Cluster

open Lib

/-! ## Decisions -/

/-- The answers of `tx::errc`. -/
inductive TxErrc
  | none
  | leaderNotFound
  | timeout
  | fenced
  | stale
  | requestRejected
  deriving DecidableEq

/-- What an operation does when its batch is applied. -/
inductive AfterReplicate
  | done
  /-- `begin_tx` goes on, after it aborted an older transaction. -/
  | fence (f : FenceBatchData)
  /-- The request is answered. -/
  | data (q : Request)

/-- What an operation does about a producer: it answers, or it replicates a batch first. -/
inductive Decision (ε : Type)
  | answer (e : ε)
  | replicate (batch : RecordBatch) (next : AfterReplicate)

/-- `make_fence_batch`. -/
def makeFenceBatch (f : FenceBatchData) : RecordBatch :=
  ⟨{ producerId := f.pid.id, producerEpoch := f.pid.epoch, baseSequence := -1 }, .fence f.txSeq⟩

/-- `make_tx_control_batch`. -/
def makeTxControlBatch (pid : ProducerIdentity) (crt : ControlRecordType) : RecordBatch :=
  ⟨{ producerId := pid.id, producerEpoch := pid.epoch, baseSequence := -1
     isTransactional := true }, .control crt⟩

namespace ProducerState

variable (p : ProducerState)

/-- `do_abort_tx`. -/
def doAbortTx (expectedTxSeq : Option Int) : Decision TxErrc :=
  match p.getTransactionSequence with
  | none => .answer .none
  | some current =>
    -- `get_abort_origin` is the past or the future
    if expectedTxSeq.any (· ≠ current) then .answer .requestRejected
    else .replicate (makeTxControlBatch p.id .txAbort) .done

/-- `do_commit_tx`. -/
def doCommitTx (expectedTxSeq : Int) : Decision TxErrc :=
  match p.getTransactionSequence with
  | none => .answer .none
  | some transactionSequence =>
    if expectedTxSeq < transactionSequence then .answer .none
    else if transactionSequence ≠ expectedTxSeq then .answer .requestRejected
    else .replicate (makeTxControlBatch p.id .txCommit) .done

/-- `do_begin_tx`. -/
def doBeginTx (isLeader : Bool) (pid : ProducerIdentity) (txSeq : Int) : Decision TxErrc :=
  if !isLeader then .answer .leaderNotFound
  else if pid.epoch < p.id.epoch then .answer .fenced
  else if p.id.epoch < pid.epoch then
    match p.doAbortTx none with
    | .answer .none => .replicate (makeFenceBatch ⟨pid, some txSeq⟩) .done
    | .answer _ => .answer .stale
    | .replicate marker _ => .replicate marker (.fence ⟨pid, some txSeq⟩)
  else
    match p.transactionState with
    | none => .replicate (makeFenceBatch ⟨pid, some txSeq⟩) .done
    | some t =>
      if t.isInProgress then
        if txSeq = t.sequence && t.status = .initialized then .answer .none
        else .answer .requestRejected
      else if txSeq ≤ t.sequence then .answer .requestRejected
      else .replicate (makeFenceBatch ⟨pid, some txSeq⟩) .done

/-- `do_transactional_replicate`: the answer is an error, or the one of another request. -/
def doTransactionalReplicate (syncedTerm : Nat) (header : RecordBatchHeader) :
    ProducerState × Decision (Except Errc Request) :=
  let bid := header.bid
  match p.transactionState with
  | none => (p, .answer (.error .invalidProducerEpoch))
  | some t =>
    if p.id.epoch ≠ bid.pid.epoch || !t.isInProgress then
      (p, .answer (.error .invalidProducerEpoch))
    else
      let result := p.tryEmplaceRequest bid syncedTerm (t.status = .initialized)
      match result.2 with
      | .error e => (result.1, .answer (.error e))
      | .ok q =>
        if (result.1.requests.states q.promise).isInitialized then
          ({ result.1 with requests := result.1.requests.markInProgress q },
            .replicate ⟨header, .data⟩ (.data q))
        else (result.1, .answer (.ok q))

end ProducerState

/-! ## Replicas -/

inductive TxPhase
  /-- The coordinator is asked about a transaction that has expired. -/
  | awaiting (pid : ProducerIdentity)
  /-- A batch is replicated, and maybe in the log already. -/
  | replicating (batch : RecordBatch) (next : AfterReplicate) (index : Option Nat)

/-- An operation that holds the lock of a producer, with its term. -/
structure TxOperation where
  producer : Int
  term : Nat
  phase : TxPhase

/-- The operation is `begin_tx`, and has the LSO lock. -/
def TxOperation.isBegin (op : TxOperation) : Bool :=
  match op.phase with
  | .awaiting _ => false
  | .replicating batch next _ =>
    match batch.kind, next with
    | .fence _, _ => true
    | _, .fence _ => true
    | _, _ => false

structure TxReplica where
  stm : RmStm := {}
  /-- How many batches of the log are applied. -/
  applied : Nat := 0
  insyncTerm : Nat := 0
  operations : OrderedStore TxOperation.producer := .empty
  /-- What `last_stable_offset` returned since the term that the replica is synced in. -/
  answers : List Int := []

/-- What a replica does. -/
inductive TxNodeAction
  | sync
  /-- A request makes a producer known. -/
  | create (pid : ProducerIdentity)
  | beginTx (term : Nat) (pid : ProducerIdentity) (txSeq : Int)
  | commitTx (term : Nat) (id txSeq : Int)
  | abortTx (term : Nat) (id txSeq : Int)
  | data (term : Nat) (header : RecordBatchHeader)
  | expire (id : Int)
  /-- The coordinator says whether the transaction is committed or aborted, if it knows. -/
  | coordinator (id : Int) (committed : Option Bool)
  /-- The batch of the operation on a producer is appended to the log. -/
  | enqueue (id : Int)
  /-- The batch is applied. -/
  | finish (id : Int)
  /-- The replication fails, or the wait for it. -/
  | fail (id : Int)
  | apply
  | stepDown
  /-- The leader writes any other batch. -/
  | other (lastOffsetDelta : Nat)
  /-- `last_stable_offset`, with some part of the log being visible. -/
  | lastStableOffset (bootstrapping stateLocked : Bool) (visible : Nat)

/-- The offset after the last batch. -/
def nextOffset (log : List RecordBatch) : Int :=
  (log.getLast?.map (·.header.lastOffset + 1)).getD 0

/-- A batch as it is written to the log. -/
def RecordBatch.place (b : RecordBatch) (baseOffset : Int) (term : Nat) : RecordBatch :=
  { b with header := { b.header with baseOffset := baseOffset, term := term } }

namespace RmStm

/-- A request makes a producer known (`maybe_create_producer`). -/
def create (s : RmStm) (pid : ProducerIdentity) : RmStm :=
  { s with producers := s.producers.put (s.maybeCreateProducer pid) }

/-- The part of `sync` for a new term. -/
def gcRequests (s : RmStm) (term : Nat) : RmStm :=
  { s with
    lastKnownLso := invalidLso
    producers := s.producers.map
      (fun p => { p with requests := p.requests.gcRequestsFromOlderTerms term }) fun _ => rfl }

/-- A request of a producer gets its result. -/
def setResult (s : RmStm) (id : Int) (q : Request) (result : Except Errc KafkaResult) : RmStm :=
  match s.producers.get id with
  | none => s
  | some p =>
    { s with producers := s.producers.put { p with requests := p.requests.setResult q result } }

end RmStm

namespace TxReplica

variable {ν : Type} [DecidableEq ν] (x : TxReplica) (L : ReplicatedLog ν RecordBatch) (n : ν)

/-- `sync`, which waits until the log of earlier terms is applied. -/
def sync : Option TxReplica :=
  if L.leader = some n ∧ L.start ≤ x.applied then
    if x.insyncTerm = L.term then some x
    else some { x with stm := x.stm.gcRequests L.term, insyncTerm := L.term, answers := [] }
  else none

/-- An operation goes on with what it decided. -/
def proceed {ε : Type} (x : TxReplica) (id : Int) (term : Nat) : Decision ε → TxReplica
  | .answer _ => x
  | .replicate batch next =>
    { x with operations := x.operations.put ⟨id, term, .replicating batch next none⟩ }

variable (id : Int)

/-- A request gets the lock of its producer. It was synced in its term before. So was it checked
    that the producer is the one of the request, but it may be a newer instance by now. -/
def locked (term : Nat) : Option ProducerState :=
  if term ≤ x.insyncTerm ∧ x.operations.get id = none then x.stm.producers.get id else none

/-- `transactional_replicate`, with the lock. -/
def replicateData (term : Nat) (header : RecordBatchHeader) : Option TxReplica :=
  if header.bid.isIdempotent ∧ header.isTransactional ∧ 0 ≤ header.lastOffsetDelta then
    (x.locked header.bid.pid.id term).map fun p =>
      let result := p.doTransactionalReplicate term header
      { x with stm := { x.stm with producers := x.stm.producers.put result.1 } }.proceed
        header.bid.pid.id term result.2
  else none

/-- `do_try_abort_old_tx` until the coordinator is asked. It syncs before. -/
def expire : Option TxReplica :=
  if L.Leads n x.insyncTerm then
    (x.locked id x.insyncTerm).map fun p =>
      match p.getTransactionSequence with
      | none => x
      | some txSeq =>
        { x with
          operations := x.operations.put ⟨id, x.insyncTerm, if 0 ≤ txSeq then .awaiting p.id
            else .replicating (makeTxControlBatch p.id .txAbort) .done none⟩ }
  else none

/-- `do_try_abort_old_tx` with the reply of the coordinator. -/
def coordinator (committed : Option Bool) : Option TxReplica :=
  match x.operations.get id with
  | some ⟨_, term, .awaiting pid⟩ =>
    match committed with
    | none => some { x with operations := x.operations.erase id }
    | some c =>
      some { x with
        operations := x.operations.put ⟨id, term,
          .replicating (makeTxControlBatch pid (if c then .txCommit else .txAbort)) .done none⟩ }
  | _ => none

/-- The batch of an operation is appended, if the replica still is the leader in the term. -/
def enqueue : Option (ReplicatedLog ν RecordBatch × TxReplica) :=
  match x.operations.get id with
  | some ⟨_, term, .replicating batch next none⟩ =>
    if L.Leads n term then
      some (L.append (batch.place (nextOffset L.entries) term), { x with
          operations := x.operations.put
            ⟨id, term, .replicating batch next (some L.entries.length)⟩ })
    else none
  | _ => none

/-- The batch of an operation is applied. -/
def finish : Option TxReplica :=
  match x.operations.get id with
  | some ⟨_, term, .replicating _ next (some i)⟩ =>
    if i < x.applied then
      match next with
      | .done => some { x with operations := x.operations.erase id }
      | .fence f =>
        if (x.stm.producers.get id).any (·.hasTransactionInProgress) then
          some { x with operations := x.operations.erase id }
        else
          some { x with
            operations := x.operations.put ⟨id, term, .replicating (makeFenceBatch f) .done none⟩ }
      | .data q =>
        (L.entries[i]?).map fun b =>
          { x with
            stm := x.stm.setResult id q
              (.ok { lastOffset := b.header.lastOffset, lastTerm := b.header.term })
            operations := x.operations.erase id }
    else none
  | _ => none

/-- An operation fails. -/
def fail : Option (ReplicatedLog ν RecordBatch × TxReplica) :=
  match x.operations.get id with
  | some ⟨_, term, .replicating _ next _⟩ =>
    match next with
    | .data q =>
      some (L, { x with
        stm := x.stm.setResult id q (.error .replicationError)
        operations := x.operations.erase id })
    | _ => some (L.stepDown n term, { x with operations := x.operations.erase id })
  | _ => none

/-- `do_apply`, of the next batch that is committed. -/
def apply : Option TxReplica :=
  if x.applied < L.committed then do
    let b ← L.entries[x.applied]?
    let stm ← x.stm.doApply b
    some { x with stm := stm, applied := x.applied + 1 }
  else none

/-- The call of `last_stable_offset`. -/
def lso (bootstrapping stateLocked : Bool) (visible : Nat) : RmStm × Int :=
  x.stm.lastStableOffset bootstrapping stateLocked (x.operations.rows.any (·.isBegin))
    (L.Leads n x.insyncTerm) (nextOffset (L.entries.take (min visible L.committed)) - 1)
    (nextOffset (L.entries.take x.applied) - 1)

/-- `last_stable_offset`. -/
def readLso (bootstrapping stateLocked : Bool) (visible : Nat) : TxReplica :=
  let result := x.lso L n bootstrapping stateLocked visible
  { x with
    stm := result.1
    answers := if result.2 = invalidLso then x.answers else result.2 :: x.answers }

/-- What an action of a replica does to the log and to the replica. -/
def act : TxNodeAction → Option (ReplicatedLog ν RecordBatch × TxReplica)
  | .sync => (x.sync L n).map (L, ·)
  | .create pid => some (L, { x with stm := x.stm.create pid })
  | .beginTx term pid txSeq =>
    (x.locked pid.id term).map fun p =>
      (L, x.proceed pid.id term (p.doBeginTx (L.leader = some n) pid txSeq))
  | .commitTx term id txSeq =>
    (x.locked id term).map fun p => (L, x.proceed id term (p.doCommitTx txSeq))
  | .abortTx term id txSeq =>
    (x.locked id term).map fun p => (L, x.proceed id term (p.doAbortTx (some txSeq)))
  | .data term header => (x.replicateData term header).map (L, ·)
  | .expire id => (x.expire L n id).map (L, ·)
  | .coordinator id committed => (x.coordinator id committed).map (L, ·)
  | .enqueue id => x.enqueue L n id
  | .finish id => (x.finish L id).map (L, ·)
  | .fail id => x.fail L n id
  | .apply => (x.apply L).map (L, ·)
  | .stepDown => some (L.stepDown n L.term, x)
  | .other lastOffsetDelta =>
    if L.leader = some n then
      some (L.append ⟨{ baseOffset := nextOffset L.entries, lastOffsetDelta := lastOffsetDelta
                        producerId := -1, producerEpoch := -1, baseSequence := -1 }, .other⟩, x)
    else none
  | .lastStableOffset bootstrapping stateLocked visible =>
    some (L, x.readLso L n bootstrapping stateLocked visible)

end TxReplica

/-! ## The partition -/

structure TxPartition (ν : Type) where
  log : ReplicatedLog ν RecordBatch := {}
  replicas : ν → TxReplica := fun _ => {}

inductive TxAction (ν : Type)
  | node (n : ν) (a : TxNodeAction)
  /-- The first `k` batches of the log get committed. -/
  | commit (k : Nat)
  /-- A replica that has the first `k` batches is elected. -/
  | elect (n : ν) (k : Nat)

namespace TxPartition

variable {ν : Type} [DecidableEq ν]

def next (σ : TxPartition ν) : TxAction ν → Option (TxPartition ν)
  | .node n a => ((σ.replicas n).act σ.log n a).map fun y =>
      ⟨y.1, Function.update σ.replicas n y.2⟩
  | .commit k => some { σ with log := σ.log.commit k }
  | .elect n k => some { σ with log := σ.log.elect n k }

/-- The steps of a partition. -/
def Step (σ : TxPartition ν) (a : TxAction ν) (τ : TxPartition ν) : Prop := σ.next a = some τ

end TxPartition

end Redpanda.Cluster
