import Redpanda.Cluster.TransactionLog
import Redpanda.Lib.Run

/-!
# Aborted transactions

A replica that applies a log to the state machine of transactions, takes local snapshots and
starts again from them.

Taking a snapshot has several steps, between which the replica goes on to apply batches: what is
in the snapshot is fixed first, then the abort snapshots are saved, in any order, after that they
replace the ranges in memory, the files which have expired are removed, and at last the snapshot
itself is written. A restart may happen at any time; it loses whatever was in memory.
-/

namespace Redpanda.Cluster

open Lib

/-! ## The replica -/

/-- What is left to do for a snapshot: to save files, and then to remove files. -/
inductive SnapshotPhase
  | saving (left : List AbortSnapshot)
  | removing (left : List AbortIndex)

/-- A snapshot that is being taken at a position in the log. -/
structure Taking where
  snapshot : TakingSnapshot
  position : Nat
  phase : SnapshotPhase

/-- A snapshot on the disk: its data, its offset, and the position in the log. -/
structure LocalSnapshot where
  data : TxSnapshot
  offset : Int
  position : Nat

structure SnapshotReplica where
  stm : RmStm := {}
  /-- How many batches of the log are applied. -/
  applied : Nat := 0
  /-- Where the log starts. -/
  startOffset : Int := 0
  files : AbortFiles := fun _ => none
  localSnapshot : Option LocalSnapshot := none
  taking : Option Taking := none

inductive SnapshotAction
  | apply
  /-- The front of the log is dropped. -/
  | truncate (startOffset : Int)
  /-- A snapshot is begun, with a size for the segments. -/
  | take (abortIndexSegmentSize : Nat)
  | save (a : AbortSnapshot)
  | finish
  | remove (idx : AbortIndex)
  /-- The snapshot is written. -/
  | write
  | restart

namespace SnapshotReplica

variable (log : List RecordBatch) (σ : SnapshotReplica)

/-- `last_applied_offset`. -/
def lastAppliedOffset : Int :=
  ((log.take σ.applied).getLast?.map (·.header.lastOffset)).getD (-1)

/-- The position of the snapshot on the disk. -/
def snapshotPosition : Nat := (σ.localSnapshot.map (·.position)).getD 0

/-- A step of a replica. Only what is in the snapshot is dropped from the log
    (`ensure_local_snapshot_exists`). -/
def next : SnapshotAction → Option SnapshotReplica
  | .apply => do
    let b ← log[σ.applied]?
    let stm ← σ.stm.doApply b
    return { σ with stm := stm, applied := σ.applied + 1 }
  | .truncate startOffset =>
    if σ.startOffset ≤ startOffset ∧
        ∀ b ∈ log.drop σ.snapshotPosition, startOffset ≤ b.header.baseOffset then
      some { σ with startOffset := startOffset }
    else none
  | .take abortIndexSegmentSize =>
    match σ.taking with
    | some _ => none
    | none =>
      let r := σ.stm.startLocalSnapshot abortIndexSegmentSize σ.startOffset
        (σ.lastAppliedOffset log)
      some { σ with
        stm := r.1
        taking := some ⟨r.2, σ.applied, .saving r.2.abortedSnapshots⟩ }
  | .save a =>
    match σ.taking with
    | some ⟨t, k, .saving left⟩ =>
      if a ∈ left then
        some { σ with
          files := Function.update σ.files a.index (some a)
          taking := some ⟨t, k, .saving (left.erase a)⟩ }
      else none
    | _ => none
  | .finish =>
    match σ.taking with
    | some ⟨t, k, .saving []⟩ =>
      some { σ with
        stm := σ.stm.finishLocalSnapshot t
        taking := some ⟨t, k, .removing t.expiredAbortIndexes⟩ }
    | _ => none
  | .remove idx =>
    match σ.taking with
    | some ⟨t, k, .removing left⟩ =>
      if idx ∈ left then
        some { σ with
          files := Function.update σ.files idx none
          taking := some ⟨t, k, .removing (left.erase idx)⟩ }
      else none
    | _ => none
  | .write =>
    match σ.taking with
    | some ⟨t, k, .removing []⟩ =>
      some { σ with
        localSnapshot := some ⟨t.stmSnapshot, t.snapshotOffset, k⟩
        taking := none }
    | _ => none
  | .restart =>
    some { σ with
      stm := σ.localSnapshot.elim {} fun l => RmStm.applyLocalSnapshot l.data l.offset σ.files
      applied := σ.snapshotPosition
      taking := none }

/-- A step of a replica. -/
def Step (a : SnapshotAction) (σ' : SnapshotReplica) : Prop := σ.next log a = some σ'

end SnapshotReplica

end Redpanda.Cluster
