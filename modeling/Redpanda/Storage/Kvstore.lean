import Redpanda.Lib.Run

/-!
# The key-value store

The store of a shard keeps its entries in memory. Operations are queued, and a background fiber, the
flusher, writes them to a segment as a batch, flushes it, applies them and resolves their futures.
When the segment is large enough, the flusher closes it, saves a snapshot of the entries, removes
the segment and makes a new one. On start-up, the store loads the snapshot and replays the segment
that begins where the snapshot ends, removes the older segments, saves a snapshot again and
removes the segments it has replayed (`Kvstore.proceed`).

A crash may come between any two steps. It keeps the batches that were flushed and as many more as
it likes, and all else on disk, as a snapshot is renamed in place. Offsets count operations, so an
offset is a natural number. What is not whole at the end of a segment is cut by its recovery, which
also gives up segments without batches.

The state remembers the operations that have survived so far (`Kvstore.history`), those issued
since the last recovery (`Kvstore.issued`), and how many of these were resolved.
-/

namespace Redpanda.KeyValueStore

open List Lib

/-- `kvstore::op`: a put, or a remove if there is no value. -/
abbrev Op (K V : Type*) := K × Option V

/-- The entries in memory. -/
abbrev Db (K V : Type*) := AList fun _ : K => V

/-- A batch of operations. -/
structure KvBatch (K V : Type*) where
  baseOffset : Nat
  records : List (Op K V)
  deriving DecidableEq

/-- A segment on disk, of which the first `flushed` batches will survive a crash. -/
structure SegmentFile (K V : Type*) where
  baseOffset : Nat
  batches : List (KvBatch K V) := []
  flushed : Nat := 0
  deriving DecidableEq

/-- A snapshot on disk. -/
structure Snapshot (K V : Type*) where
  lastOffset : Nat
  entries : List (K × V)
  deriving DecidableEq

/-- The directory of the store. -/
structure Disk (K V : Type*) where
  snapshot : Option (Snapshot K V) := none
  segments : List (SegmentFile K V) := []
  deriving DecidableEq

/-- Where the flusher is in its cycle. -/
inductive Flusher (K V : Type*)
  /-- It waits for operations. -/
  | waiting
  /-- `roll` is about to close the segment. -/
  | closing (baseOffset : Nat)
  /-- `roll` is about to save a snapshot. -/
  | saving (baseOffset : Nat)
  /-- `roll` is about to remove the segment. -/
  | removing (baseOffset : Nat)
  /-- `roll` is about to make a segment. -/
  | making
  /-- `flush_and_apply_ops` is about to begin. -/
  | rolled
  /-- The batch of the operations is written, and not flushed. -/
  | appended (ops : List (Op K V))
  /-- The batch of the operations is flushed, and they are not applied. -/
  | flushed (ops : List (Op K V))

/-- The members of a store that is started. -/
structure Running (K V : Type*) where
  db : Db K V
  nextOffset : Nat
  segment : Option Nat := none
  ops : List (Op K V) := []
  flusher : Flusher K V := .waiting

/-- What is in memory. -/
inductive Phase (K V : Type*)
  | down
  /-- The snapshot is loaded and the segments are opened. -/
  | loaded (db : Db K V) (nextOffset : Nat)
  /-- The segments are replayed, and old ones are being removed. -/
  | removingOld (db : Db K V) (nextOffset : Nat) (old replayed : List Nat)
  /-- The snapshot is saved, and the replayed segments are being removed. -/
  | removingReplayed (db : Db K V) (nextOffset : Nat) (replayed : List Nat)
  | running (r : Running K V)

/-- A store with its disk. -/
structure Kvstore (K V : Type*) where
  disk : Disk K V := {}
  phase : Phase K V := .down
  history : List (Op K V) := []
  issued : List (Op K V) := []
  resolved : Nat := 0

variable {K V : Type*} [DecidableEq K]

/-- `apply_op`. -/
def applyOp (db : Db K V) (op : Op K V) : Db K V :=
  match op.2 with
  | some v => db.insert op.1 v
  | none => db.erase op.1

/-- The entries after the operations. -/
def contents (ops : List (Op K V)) : K → Option V :=
  ops.foldl (fun f op => Function.update f op.1 op.2) fun _ => none

namespace Disk

variable (d : Disk K V) (baseOffset : Nat)

/-- An entry of a snapshot is loaded. A key that is there already is an assertion failure. -/
def emplace (db : Db K V) (e : K × V) : Option (Db K V) :=
  if (db.lookup e.1).isSome then none else some (db.insert e.1 e.2)

/-- `load_snapshot`: the entries and the next offset. -/
def loadSnapshot : Option (Db K V × Nat) :=
  match d.snapshot with
  | none => some (∅, 0)
  | some s => (s.entries.foldlM emplace ∅).map fun db => (db, s.lastOffset + 1)

/-- `save_snapshot`. -/
def saveSnapshot (db : Db K V) (nextOffset : Nat) : Disk K V :=
  if nextOffset = 0 then d
  else { d with snapshot := some ⟨nextOffset - 1, db.entries.map fun e => (e.1, e.2)⟩ }

/-- `recover_segments`. -/
def recoverSegments : Disk K V :=
  { d with segments := d.segments.filter fun s => s.batches ≠ [] }

def modifySegment (f : SegmentFile K V → SegmentFile K V) : Disk K V :=
  { d with segments := d.segments.map fun s => if s.baseOffset = baseOffset then f s else s }

def removeSegment : Disk K V :=
  { d with segments := d.segments.filter fun s => s.baseOffset ≠ baseOffset }

/-- `make_segment`. -/
def makeSegment : Disk K V :=
  { d with segments := d.segments ++ [{ baseOffset := baseOffset }] }

/-- What a crash leaves of a segment that has `n` batches on disk, or more if they were flushed. -/
def crash (keep : Nat → Nat) : Disk K V :=
  { d with
    segments := d.segments.map fun s =>
      { s with batches := s.batches.take (max s.flushed (keep s.baseOffset)) } }

end Disk

variable (x : Db K V × Nat)

/-- `replay_consumer`: a batch is replayed, from the offset that is expected. -/
def replayBatch (b : KvBatch K V) : Option (Db K V × Nat) :=
  if b.records ≠ [] ∧ b.baseOffset = x.2 then
    some (b.records.foldl applyOp x.1, x.2 + b.records.length)
  else none

/-- The loop of `replay_segments` for one segment. -/
def replaySegment (s : SegmentFile K V) : Option (Db K V × Nat) :=
  if s.baseOffset = x.2 then s.batches.foldlM replayBatch x else none

/-- The segments from the one that starts at the next offset on are replayed. A hole in the log is
    not recoverable. -/
def replaySegments (segments : List (SegmentFile K V)) : Option (Db K V × Nat) :=
  let matching := segments.dropWhile fun s => s.baseOffset ≠ x.2
  if matching = [] ∧ ∃ s ∈ segments.getLast?, x.2 < s.baseOffset then none
  else matching.foldlM replaySegment x

/-- What can happen to a store. -/
inductive Action (K V : Type*)
  | put (op : Op K V)
  | proceed
  | crash (keep : Nat → Nat)

/-- The operation that is issued. -/
def Action.op? : Action K V → Option (Op K V)
  | put op => some op
  | _ => none

/-- The size of batches on disk, and the size at which a segment is rolled. -/
structure Config (K V : Type*) where
  batchSize : KvBatch K V → Nat
  maxSegmentSize : Nat

/-- The segment of the flusher is larger than the maximum. -/
def Config.isLarge (cfg : Config K V) (d : Disk K V) (baseOffset : Nat) : Prop :=
  ∃ f ∈ d.segments, f.baseOffset = baseOffset ∧
    cfg.maxSegmentSize < (f.batches.map cfg.batchSize).sum
  deriving Decidable

namespace Kvstore

variable (cfg : Config K V) (s : Kvstore K V)

/-- The store is started. What was issued before and is not part of its entries is lost. -/
def started (db : Db K V) (nextOffset : Nat) : Kvstore K V :=
  { s with
    phase := .running { db := db, nextOffset := nextOffset }
    history := (s.history ++ s.issued).take nextOffset
    issued := []
    resolved := 0 }

/-- The next step of the flusher: `roll`, and then `flush_and_apply_ops`. -/
def flush (r : Running K V) : Kvstore K V :=
  match r.flusher with
  | .waiting =>
    match r.segment with
    | none => { s with phase := .running { r with flusher := .making } }
    | some b =>
      if cfg.isLarge s.disk b then
        { s with phase := .running { r with segment := none, flusher := .closing b } }
      else { s with phase := .running { r with flusher := .rolled } }
  | .closing b =>
    { s with
      disk := s.disk.modifySegment b fun f => { f with flushed := f.batches.length }
      phase := .running { r with flusher := .saving b } }
  | .saving b =>
    { s with
      disk := s.disk.saveSnapshot r.db r.nextOffset
      phase := .running { r with flusher := .removing b } }
  | .removing b =>
    { s with
      disk := s.disk.removeSegment b
      phase := .running { r with flusher := .making } }
  | .making =>
    { s with
      disk := s.disk.makeSegment r.nextOffset
      phase := .running { r with segment := some r.nextOffset, flusher := .rolled } }
  | .rolled =>
    match r.ops, r.segment with
    | op :: ops, some b =>
      { s with
        disk := s.disk.modifySegment b fun f =>
          { f with batches := f.batches ++ [⟨r.nextOffset, op :: ops⟩] }
        phase := .running { r with ops := [], flusher := .appended (op :: ops) } }
    | _, _ => { s with phase := .running { r with flusher := .waiting } }
  | .appended ops =>
    { s with
      disk := r.segment.elim s.disk fun b =>
        s.disk.modifySegment b fun f => { f with flushed := f.batches.length }
      phase := .running { r with flusher := .flushed ops } }
  | .flushed ops =>
    { s with
      phase := .running
        { r with
          db := ops.foldl applyOp r.db
          nextOffset := r.nextOffset + ops.length
          flusher := .waiting }
      resolved := s.resolved + ops.length }

/-- The next step of the store: `recover`, and then the flusher. -/
def proceed : Option (Kvstore K V) :=
  match s.phase with
  | .down =>
    match s.disk.loadSnapshot with
    | some (db, nextOffset) =>
      some { s with disk := s.disk.recoverSegments, phase := .loaded db nextOffset }
    | none => none
  | .loaded db nextOffset =>
    match s.disk.segments, replaySegments (db, nextOffset) s.disk.segments with
    | [], _ => some (s.started db nextOffset)
    | _, none => none
    | segments, some (db', nextOffset') =>
      some
        { s with
          phase := .removingOld db' nextOffset'
            ((segments.takeWhile fun f => f.baseOffset ≠ nextOffset).map SegmentFile.baseOffset)
            ((segments.dropWhile fun f => f.baseOffset ≠ nextOffset).map SegmentFile.baseOffset) }
  | .removingOld db nextOffset (b :: old) replayed =>
    some { s with
      disk := s.disk.removeSegment b
      phase := .removingOld db nextOffset old replayed }
  | .removingOld db nextOffset [] replayed =>
    some { s with
      disk := s.disk.saveSnapshot db nextOffset
      phase := .removingReplayed db nextOffset replayed }
  | .removingReplayed db nextOffset (b :: replayed) =>
    some { s with
      disk := s.disk.removeSegment b
      phase := .removingReplayed db nextOffset replayed }
  | .removingReplayed db nextOffset [] => some (s.started db nextOffset)
  | .running r => some (s.flush cfg r)

def next : Action K V → Option (Kvstore K V)
  | .put op =>
    match s.phase with
    | .running r =>
      some { s with
        phase := .running { r with ops := r.ops ++ [op] }
        issued := s.issued ++ [op] }
    | _ => none
  | .proceed => s.proceed cfg
  | .crash keep => some { s with disk := s.disk.crash keep, phase := .down }

def Step (s : Kvstore K V) (a : Action K V) (t : Kvstore K V) : Prop :=
  s.next cfg a = some t

end Kvstore

end Redpanda.KeyValueStore
