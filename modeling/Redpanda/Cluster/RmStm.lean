import Redpanda.Cluster.ProducerState
import Redpanda.Lib.OrderedStore

/-!
# The state machine of transactions

The state machine of a partition (`rm_stm`), which the replicas build from the batches in the
log. It knows the producers with their last transactions, in which order the transactions that
are open began, and the offsets of the ones that were aborted. The three things it tells are

* how far consumers may read that want committed data only (`lastStableOffset`),
* which transactions in some part of the log were aborted (`doAbortedTransactions`),
* and the snapshot to start again from (`startLocalSnapshot`, `finishLocalSnapshot` and
  `applyLocalSnapshot`).

The aborted transactions are in a list, as long as they are few. Taking a snapshot moves them to
files, a segment of them to each; these *abort snapshots* are named by an index (`AbortIndex`),
the range of their offsets.

The highest producer id, which is for others to read, the timers and the sizes of the files are
left out. So are evicted producers, and the translation of offsets: the offsets of kafka are
those of the log.
-/

namespace Redpanda.Cluster

open Lib

/-! ## Batches in the log -/

/-- What the type of a batch, its attributes and its records tell the state machine. -/
inductive BatchKind
  /-- `tx_fence`. -/
  | fence (txSeq : Option Int)
  /-- A control batch. -/
  | control (crt : ControlRecordType)
  /-- `raft_data`, `ctp_placeholder` or `compaction_placeholder`. -/
  | data
  /-- Any other one, such as `raft_configuration`. -/
  | other
  deriving DecidableEq

structure RecordBatch where
  header : RecordBatchHeader
  kind : BatchKind
  deriving DecidableEq

/-! ## The state -/

/-- `model::offset::min()`, which is also the default. -/
def offsetMin : Int := -2 ^ 63

def invalidLso : Int := -1

structure AbortIndex where
  first : Int
  last : Int
  deriving DecidableEq

structure AbortSnapshot where
  first : Int
  last : Int
  aborted : List TxRange
  deriving DecidableEq

/-- The index which names the file. -/
def AbortSnapshot.index (a : AbortSnapshot) : AbortIndex := ⟨a.first, a.last⟩

structure AbortedTxState where
  aborted : List TxRange := []
  abortIndexes : List AbortIndex := []
  /-- One of the files, which is kept in memory. -/
  lastAbortSnapshot : AbortSnapshot := ⟨offsetMin, -1, []⟩

/-- The files with abort snapshots (`_abort_snapshot_mgr`). -/
abbrev AbortFiles := AbortIndex → Option AbortSnapshot

structure RmStm where
  producers : OrderedStore (fun p : ProducerState => p.id.id) := .empty
  /-- The producers with open transactions, in the order in which these began. -/
  activeTxProducers : List Int := []
  abortedTxState : AbortedTxState := {}
  applyWatermark : Int := offsetMin
  lastKnownLso : Int := invalidLso

namespace RmStm

variable (s : RmStm)

/-- `maybe_create_producer`: the known producer, or else a new one. -/
def maybeCreateProducer (pid : ProducerIdentity) : ProducerState :=
  (s.producers.get pid.id).getD { id := pid }

/-! ## Applying batches -/

/-- `apply_fence`. -/
def applyFence (header : RecordBatchHeader) (txSeq : Option Int) : RmStm :=
  let pid := header.bid.pid
  let producer := (s.maybeCreateProducer pid).applyTransactionBegin header ⟨pid, txSeq⟩
  { s with
    producers := s.producers.put producer
    activeTxProducers := s.activeTxProducers.erase pid.id ++ [pid.id] }

/-- `apply_control`. -/
def applyControl (header : RecordBatchHeader) (crt : ControlRecordType) : RmStm :=
  let pid := header.bid.pid
  let result := (s.maybeCreateProducer pid).applyTransactionEnd crt
  { s with
    producers := s.producers.put result.1
    abortedTxState :=
      { s.abortedTxState with
        aborted := s.abortedTxState.aborted ++ if crt = .txAbort then result.2.toList else [] }
    activeTxProducers := s.activeTxProducers.erase pid.id }

/-- `apply_data`. -/
def applyData (header : RecordBatchHeader) : Option RmStm :=
  let bid := header.bid
  if !bid.isIdempotent then some s
  else
    ((s.maybeCreateProducer bid.pid).applyData header header.lastOffset).map fun producer =>
      { s with
        producers := s.producers.put producer
        activeTxProducers :=
          if bid.isTransactional && bid.pid.id ∉ s.activeTxProducers then
            s.activeTxProducers ++ [bid.pid.id]
          else s.activeTxProducers }

/-- `do_apply`. -/
def doApply (b : RecordBatch) : Option RmStm :=
  let s := { s with applyWatermark := b.header.lastOffset }
  match b.kind with
  | .fence txSeq => some (s.applyFence b.header txSeq)
  | .control crt => some (s.applyControl b.header crt)
  | .data => s.applyData b.header
  | .other => some s

/-! ## What can be read -/

/-- Where the first transaction that is open begins: `none` if it is not known, and `some none`
    if there is none. -/
def firstTxStart : Option (Option Int) :=
  match s.activeTxProducers with
  | [] => some none
  | id :: _ =>
    match (s.producers.get id).bind (·.transactionState) with
    | none => none
    | some t => if s.applyWatermark < t.first then none else some (some t.first)

/-- `last_stable_offset`, after its checks that the state machine is not stopped or still
    bootstrapping (`bootstrapping`), and that the state lock (`stateLocked`) and the LSO lock
    (`lsoLocked`) are free. -/
def lastStableOffset (bootstrapping stateLocked lsoLocked syncedLeader : Bool)
    (lastVisibleIndex lastApplied : Int) : RmStm × Int :=
  if bootstrapping then (s, invalidLso)
  else if stateLocked || lsoLocked then (s, s.lastKnownLso)
  else
    match s.firstTxStart with
    | none => (s, invalidLso)
    | some first =>
      let lso := first.getD (if syncedLeader then lastVisibleIndex + 1 else lastApplied + 1)
      ({ s with lastKnownLso := max s.lastKnownLso lso }, max s.lastKnownLso lso)

end RmStm

/-- `filter_intersecting`. -/
def filterIntersecting (source : List TxRange) (lo hi : Int) : List TxRange :=
  source.filter fun range => !(range.last < lo) && !(hi < range.first)

/-- `do_aborted_transactions`. -/
def AbortedTxState.doAbortedTransactions (a : AbortedTxState) (files : AbortFiles)
    (lo hi : Int) : List TxRange :=
  let idxes := a.abortIndexes.filter fun idx => !(idx.last < lo) && !(hi < idx.first)
  (idxes.filter (· = a.lastAbortSnapshot.index)).flatMap
      (fun _ => filterIntersecting a.lastAbortSnapshot.aborted lo hi) ++
    filterIntersecting a.aborted lo hi ++
    (idxes.filter (· ≠ a.lastAbortSnapshot.index)).flatMap fun idx =>
      (files idx).elim [] fun snapshot => filterIntersecting snapshot.aborted lo hi

/-! ## Local snapshots -/

structure FinishedRequest where
  firstSequence : Int
  lastSequence : Int
  lastOffset : Int
  term : Nat
  deriving DecidableEq

structure ProducerStateSnapshot where
  id : ProducerIdentity
  finishedRequests : List FinishedRequest
  transactionState : Option TransactionState
  deriving DecidableEq

namespace ProducerState

/-- `snapshot`. -/
def snapshot (p : ProducerState) : ProducerStateSnapshot where
  id := p.id
  finishedRequests := p.requests.finished.filterMap fun q =>
    match p.requests.states q.promise with
    | .completed (.ok r) => some ⟨q.first, q.last, r.lastOffset, q.term⟩
    | _ => none
  transactionState := p.transactionState

/-- A finished request of a snapshot. -/
def hydrate (r : Requests) (q : FinishedRequest) : Requests :=
  { r with
    finished := r.finished ++ [r.make q.firstSequence q.lastSequence q.term]
    states := Function.update r.states r.made (.completed (.ok { lastOffset := q.lastOffset }))
    made := r.made + 1 }

/-- The producer that a snapshot is for. -/
def fromSnapshot (s : ProducerStateSnapshot) : ProducerState where
  id := s.id
  requests := s.finishedRequests.foldl hydrate {}
  transactionState := s.transactionState

end ProducerState

/-- `tx_snapshot_v6`. -/
structure TxSnapshot where
  producers : List ProducerStateSnapshot := []
  aborted : List TxRange := []
  abortIndexes : List AbortIndex := []

/-- The loop of `do_take_local_snapshot` which splits ranges into segments. The offsets
    are those of the segment that is being built, if there are any. -/
structure Offload where
  first : Option Int := none
  last : Option Int := none
  abortedRanges : List TxRange := []
  abortedSnapshots : List AbortSnapshot := []

/-- The body of the loop. -/
def Offload.push (abortIndexSegmentSize : Nat) (o : Offload) (entry : TxRange) : Offload :=
  let first := o.first.elim entry.first (min · entry.first)
  let last := o.last.elim entry.last (max · entry.last)
  let abortedRanges := o.abortedRanges ++ [entry]
  if abortIndexSegmentSize ≤ abortedRanges.length then
    { abortedSnapshots := o.abortedSnapshots ++ [⟨first, last, abortedRanges⟩] }
  else
    { o with first := some first, last := some last, abortedRanges := abortedRanges }

/-- What `do_take_local_snapshot` has yet to do when it gives up the apply lock. -/
structure TakingSnapshot where
  finalAbortIndexes : List AbortIndex
  expiredAbortIndexes : List AbortIndex
  abortedSnapshots : List AbortSnapshot
  rangesOffloaded : List TxRange
  stmSnapshot : TxSnapshot
  /-- `snapshot_offset`. -/
  snapshotOffset : Int

namespace RmStm

/-- The producers in a snapshot. -/
def snapshotProducers (s : RmStm) (startOffset : Int) : List ProducerStateSnapshot :=
  s.producers.rows.filterMap fun p =>
    let snap := p.snapshot
    let snap :=
      { snap with
        finishedRequests := snap.finishedRequests.filter fun q => !(q.lastOffset < startOffset) }
    if !snap.finishedRequests.isEmpty || p.hasTransactionInProgress then some snap else none

/-- `do_take_local_snapshot`, as long as it has the apply lock. -/
def startLocalSnapshot (s : RmStm) (abortIndexSegmentSize : Nat)
    (startOffset lastAppliedOffset : Int) : RmStm × TakingSnapshot :=
  let a := s.abortedTxState
  let retained := a.abortIndexes.filter fun idx => !(idx.last < startOffset)
  let preserved := a.aborted.filter fun range => startOffset ≤ range.last
  let many := abortIndexSegmentSize < preserved.length
  let aborted := if many then preserved.insertionSort (·.first ≤ ·.first) else preserved
  let offload : Offload :=
    if many then aborted.foldl (Offload.push abortIndexSegmentSize) {}
    else { abortedRanges := aborted }
  let final := retained ++ offload.abortedSnapshots.map (·.index)
  ({ s with abortedTxState := { a with aborted := aborted } },
    { finalAbortIndexes := final
      expiredAbortIndexes := a.abortIndexes.filter (·.last < startOffset)
      abortedSnapshots := offload.abortedSnapshots
      rangesOffloaded := offload.abortedSnapshots.flatMap (·.aborted)
      stmSnapshot :=
        { producers := s.snapshotProducers startOffset
          aborted := offload.abortedRanges
          abortIndexes := final }
      snapshotOffset := lastAppliedOffset })

/-- `do_take_local_snapshot`, once the abort snapshots are saved. -/
def finishLocalSnapshot (s : RmStm) (t : TakingSnapshot) : RmStm :=
  { s with
    abortedTxState :=
      { s.abortedTxState with
        abortIndexes := t.finalAbortIndexes
        aborted := s.abortedTxState.aborted.filter (· ∉ t.rangesOffloaded) } }

/-- The producers are put into the map, unless there is one already. -/
def restoreProducers (l : List ProducerStateSnapshot) :
    OrderedStore (fun p : ProducerState => p.id.id) :=
  l.foldl (fun m snap =>
    if (m.get snap.id.id).isSome then m else m.put (ProducerState.fromSnapshot snap)) .empty

/-- The index with the largest offset. -/
def lastAbortIndex (l : List AbortIndex) : AbortIndex :=
  l.foldl (fun last entry => if last.last < entry.last then entry else last) ⟨offsetMin, -1⟩

/-- `apply_local_snapshot`, of the latest version, which a state machine starts with. -/
def applyLocalSnapshot (data : TxSnapshot) (offset : Int) (files : AbortFiles) : RmStm :=
  let producers := restoreProducers data.producers
  let transactional := producers.rows.filterMap fun p =>
    if p.hasTransactionInProgress then p.transactionState.map fun t => (t.first, p.id.id)
    else none
  let last := lastAbortIndex data.abortIndexes
  { producers := producers
    activeTxProducers := (transactional.insertionSort (·.1 ≤ ·.1)).map (·.2)
    abortedTxState :=
      { aborted := data.aborted
        abortIndexes := data.abortIndexes
        lastAbortSnapshot :=
          (if 0 < last.last then files last else none).getD ⟨offsetMin, -1, []⟩ }
    applyWatermark := offset }

end RmStm

end Redpanda.Cluster
