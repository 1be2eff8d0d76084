import Redpanda.Lib.Run
import Redpanda.LevelOne.Lsm.StateReader

/-!
# Updates of the LSM metastore

Each update is checked against a snapshot of the store, and builds the rows of the write
batch that is then applied to the store (`build_rows`). Where the code takes the time
from the clock, the time is an argument.
-/

namespace Redpanda.LevelOne.Lsm

open Lib Model

/-! ## Objects -/

variable (s : Store) (tidp : TopicIdPartition)

/-- `validate_preregistered_and_collect`: the entries of the new objects, all of which
    have to be preregistered. -/
def validatePreregistered (newObjects : List NewObject) (now : Int) :
    Except UpdateError ObjectEntries :=
  newObjects.foldlM (fun entries o =>
    match s.getObject o.oid with
    | none => .error (.notPreregistered o.oid)
    | some entry =>
      if entry.isPreregistration then
        .ok (if o.oid ∈ entries then entries else entries.insert o.oid
          { totalDataSize := o.dataSize, footerPos := o.footerPos, objectSize := o.objectSize,
            lastUpdated := now })
      else .error (.notPreregistered o.oid)) ∅

/-- Counting an extent as removed from its object. -/
def removeExtent (entries : ObjectEntries) (e : Extent) : ObjectEntries :=
  match entries.lookup e.oid with
  | some entry =>
    entries.insert e.oid { entry with removedDataSize := entry.removedDataSize + e.len }
  | none => entries

variable (extents : List Extent)

/-- The sizes of extents summed up by object. -/
def sizesByOid : AList fun _ : ObjectId => Nat :=
  extents.foldl (fun sizes e => sizes.insert e.oid ((sizes.lookup e.oid).getD 0 + e.len)) ∅

/-- The entries of objects from which data of the given sizes is removed. Objects that
    do not exist are skipped. -/
def removalEntries (now : Int) :
    List (Sigma fun _ : ObjectId => Nat) → Except UpdateError (List (ObjectId × ObjectEntry))
  | [] => .ok []
  | ⟨oid, size⟩ :: sizes =>
    match s.getObject oid with
    | none => removalEntries now sizes
    | some entry =>
      if entry.isPreregistration then .error (.unexpectedPreregistered oid)
      else do
        let entries ← removalEntries now sizes
        return (oid, { entry with removedDataSize := entry.removedDataSize + size
                                  lastUpdated := now }) :: entries

/-- `build_object_removal_entries`, for the extents that are removed. -/
def buildObjectRemovalEntries (removed : List Extent) (now : Int) :
    Except UpdateError (List (ObjectId × ObjectEntry)) :=
  removalEntries s now (sizesByOid removed).entries

def objectRows (entries : List (ObjectId × ObjectEntry)) : List WriteBatchRow :=
  entries.map fun p => .put (.object p.1 p.2)

def entryRows (entries : ObjectEntries) : List WriteBatchRow :=
  objectRows (entries.entries.map fun p => (p.1, p.2))

/-! ## Adding objects -/

structure AddObjectsDbUpdate where
  newObjects : List NewObject
  newTerms : AList fun _ : TopicIdPartition => List TermStart

/-- The terms of a partition have to match its extents. -/
def checkTermsOfExtents (terms : List TermStart)
    (extents : List Extent) : Except UpdateError Unit :=
  match terms.head?, terms.getLast? with
  | some firstTerm, some lastTerm =>
    match extents.head?, extents.getLast? with
    | some firstExtent, some lastExtent =>
      if firstExtent.baseOffset ≠ firstTerm.startOffset then
        .error (.startMismatch tidp firstExtent.baseOffset firstTerm.startOffset)
      else if lastExtent.lastOffset < lastTerm.startOffset then
        .error (.extentsEndBelowTerm tidp lastExtent.lastOffset lastTerm.startOffset)
      else checkTerms tidp ⟨-1, -1⟩ terms
    | _, _ => .error (.termsWithoutExtents tidp)
  | _, _ => .error (.emptyTerms tidp)

namespace AddObjectsDbUpdate

def validateInputs (u : AddObjectsDbUpdate) : Except UpdateError Unit :=
  if u.newObjects.isEmpty then .error .noObjects
  else if u.newTerms.entries.isEmpty then .error .noTerms
  else do
    let newExtents := collectExtents u.newObjects
    newExtents.entries.forM fun p =>
      if p.1 ∉ u.newTerms then .error (.missingTerms p.1)
      else match p.2 with
        | [] => .ok ()
        | e :: _ => checkExtents p.1 e.baseOffset p.2
    u.newTerms.entries.forM fun p =>
      checkTermsOfExtents p.1 p.2 ((newExtents.lookup p.1).getD [])

end AddObjectsDbUpdate

/-- The offset at which new extents of a partition have to begin. -/
def Store.expectedNext : Int :=
  match s.getMetadata tidp with
  | some metadata => metadata.nextOffset
  | none => 0

/-- The extents of a request begin at the expected offset. Others are dropped. -/
def Store.IsAligned (p : Sigma fun _ : TopicIdPartition => List Extent) : Prop :=
  p.2.head?.any (·.baseOffset = s.expectedNext p.1)
  deriving Decidable

/-- The metadata of a partition with new extents at its end. -/
def Store.extendedMetadata : MetadataRowValue :=
  let old := (s.getMetadata tidp).getD ⟨0, 0, 0, 0, 0⟩
  { old with
    nextOffset := match extents.getLast? with
      | some e => nextOffset e.lastOffset
      | none => old.nextOffset
    size := old.size + (extents.map (·.len)).sum
    numExtents := old.numExtents + extents.length }

/-- The terms of a partition that are new. The first one may be the last known term. -/
def Store.verifyTerms (terms : List TermStart) :
    Except UpdateError (List TermStart) :=
  match s.getMaxTerm tidp, terms with
  | some last, first :: rest =>
    if first.termId < last.termId then .error (.termBelowLast tidp first.termId last.termId)
    else if first.startOffset ≤ last.startOffset then
      .error (.termStartBelowLast tidp first.startOffset last.startOffset)
    else .ok (if first.termId = last.termId then rest else first :: rest)
  | _, terms => .ok terms

/-- What `add_objects_db_update::build_rows` gives: the rows, and for the partitions
    whose extents are dropped the expected next offset. -/
structure AddObjectsRows where
  rows : List WriteBatchRow
  corrections : List (TopicIdPartition × Int)

namespace AddObjectsDbUpdate

def buildRows (u : AddObjectsDbUpdate) (s : Store) (now : Int) :
    Except UpdateError AddObjectsRows := do
  u.validateInputs
  let newObjects ← validatePreregistered s u.newObjects now
  let newExtents := (collectExtents u.newObjects).entries
  let accepted := newExtents.filter s.IsAligned
  let dropped := newExtents.filter (¬ s.IsAligned ·)
  let newObjects := (dropped.flatMap (·.2)).foldl removeExtent newObjects
  let newTerms ← (u.newTerms.entries.filter (·.1 ∉ dropped.keys)).mapM fun p => do
    let terms ← s.verifyTerms p.1 p.2
    return (p.1, terms)
  return {
    rows := entryRows newObjects
      ++ newTerms.flatMap (fun p => p.2.map fun t => .put (.term p.1 t))
      ++ accepted.flatMap (fun p => p.2.map fun e => .put (.extent p.1 e))
      ++ accepted.map fun p => .put (.metadata p.1 (s.extendedMetadata p.1 p.2))
    corrections := dropped.map fun p => (p.1, s.expectedNext p.1) }

end AddObjectsDbUpdate

/-! ## Replacing objects -/

structure ReplaceObjectsDbUpdate where
  newObjects : List NewObject
  compactionUpdates : AList fun _ : TopicIdPartition => CompactionStateUpdate

/-- The new extents have to span the ranges cleaned by a compaction. -/
def checkCleanedRanges (newExtents : SortedExtents) (tidp : TopicIdPartition)
    (update : CompactionStateUpdate) : Except UpdateError Unit :=
  match newExtents.lookup tidp with
  | none => .error (.cleanedWithoutExtents tidp)
  | some extents =>
    match extents.head?, extents.getLast?, update.newCleanedRanges.head?,
        update.newCleanedRanges.getLast? with
    | some firstExtent, some lastExtent, some firstRange, some lastRange =>
      if lastExtent.lastOffset < lastRange.lastOffset then
        .error (.cleanedAboveExtents tidp lastRange.lastOffset lastExtent.lastOffset)
      else if firstRange.baseOffset < firstExtent.baseOffset then
        .error (.cleanedBelowExtents tidp firstExtent.baseOffset firstRange.baseOffset)
      else .ok ()
    | _, _, _, _ => .ok ()

/-- Where the extents that span an interval begin: with the first extent, if the interval
    begins below the start of the log. -/
def intervalBase (startOffset : Int) (interval : Interval) :
    Except UpdateError Int :=
  if interval.baseOffset < startOffset then
    match s.getExtentGe tidp 0 with
    | some e => .ok e.baseOffset
    | none => .error (.noExactExtents tidp interval.baseOffset interval.lastOffset)
  else .ok interval.baseOffset

/-- The extents that span an interval. An interval that ends below the start of the log is
    ignored. -/
def collectExactInterval (startOffset : Int)
    (interval : Interval) : Except UpdateError (List (Key × Extent)) :=
  if interval.lastOffset < startOffset then .ok []
  else do
    let base ← intervalBase s tidp startOffset interval
    match s.getExtentRange tidp base interval.lastOffset with
    | none => .error (.noExactExtents tidp base interval.lastOffset)
    | some range =>
      let result := s.getRows range
      if result.corruption then .error .corruption else .ok result.rows

/-- `collect_exact_intervals`. -/
def collectExactIntervals (startOffset : Int) :
    List Interval → Except UpdateError (List (Key × Extent))
  | [] => .ok []
  | interval :: intervals => do
    let rows ← collectExactInterval s tidp startOffset interval
    let others ← collectExactIntervals startOffset intervals
    return rows ++ others

/-- What changes in a partition. -/
structure PartitionUpdate where
  metadata : MetadataRowValue
  /-- The extents that are replaced, with their keys. -/
  replaced : List (Key × Extent) := []
  compactionState : Option CompactionState := none

/-- `get_metadata_for_update`: what changes so far, or nothing. -/
def getForUpdate :
    Option PartitionUpdate → Except UpdateError PartitionUpdate
  | some update => .ok update
  | none =>
    match s.getMetadata tidp with
    | some metadata => .ok { metadata }
    | none => .error (.notTracked tidp)

/-- Taking the extents that are replaced out of a partition. -/
def replaceExtents (intervals : List Interval)
    (update : Option PartitionUpdate) : Except UpdateError PartitionUpdate := do
  let update ← getForUpdate s tidp update
  let replaced ← collectExactIntervals s tidp update.metadata.startOffset intervals
  return { update with
    metadata := { update.metadata with
      size := update.metadata.size - (replaced.map (·.2.len)).sum
      numExtents := update.metadata.numExtents - replaced.length }
    replaced }

/-- Adding the ranges cleaned by a compaction. -/
def applyCleanedRanges (cleanedAt : Int) :
    CompactionState → List CleanedRange → Except UpdateError CompactionState
  | state, [] => .ok state
  | state, r :: ranges =>
    let cleaned := OffsetIntervalSet.insertRange state.cleanedRanges r.baseOffset r.lastOffset
    if ¬ cleaned.2 then .error .assertionFailed
    else
      let state := { state with cleanedRanges := cleaned.1 }
      let added := if r.hasTombstones then state.add (r.withTombstones cleanedAt) else (state, true)
      if ¬ added.2 then .error .assertionFailed
      else applyCleanedRanges cleanedAt added.1 ranges

/-- Removing the ranges without tombstones left. -/
def removeTombstones :
    CompactionState → List Interval → Except UpdateError CompactionState
  | state, [] => .ok state
  | state, r :: ranges =>
    if ¬ state.hasContiguousRangeWithTombstones r.baseOffset r.lastOffset then
      .error (.tombstonesNotTracked tidp r.baseOffset r.lastOffset)
    else
      let erased := state.eraseContiguousRangeWithTombstones r.baseOffset r.lastOffset
      if ¬ erased.2 then .error .assertionFailed
      else removeTombstones erased.1 ranges

/-- The compaction state after an update (`merge_compaction_state`), whose compaction
    epoch has to be the current one. -/
def mergeCompactionState (update : CompactionStateUpdate)
    (epoch : Int) : Except UpdateError CompactionState :=
  if epoch ≠ update.expectedCompactionEpoch then
    .error (.epochMismatch tidp update.expectedCompactionEpoch epoch)
  else do
    let state := (s.getCompactionMetadata tidp).getD .empty
    update.newCleanedRanges.forM fun r =>
      if r.hasTombstones ∧ ¬ state.mayAdd (r.withTombstones update.cleanedAt) then
        .error (.tombstonesOverlap tidp r.baseOffset r.lastOffset)
      else .ok ()
    let state ← applyCleanedRanges update.cleanedAt state update.newCleanedRanges
    removeTombstones tidp state (OffsetIntervalSet.toVec update.removedTombstonesRanges)

/-- Ranges can only be cleaned if the extents are replaced down to the start of the log. -/
def checkCleanedFromStart (newExtents : SortedExtents) (tidp : TopicIdPartition)
    (compaction : CompactionStateUpdate) (startOffset : Int) : Except UpdateError Unit :=
  match compaction.newCleanedRanges, (newExtents.lookup tidp).getD [] with
  | _ :: _, e :: _ =>
    if startOffset < e.baseOffset then
      .error (.cleanedAboveStart tidp e.baseOffset startOffset)
    else .ok ()
  | _, _ => .ok ()

/-- Applying the compaction update of a partition. -/
def compactPartition (s : Store) (newExtents : SortedExtents) (tidp : TopicIdPartition)
    (compaction : CompactionStateUpdate) (update : Option PartitionUpdate) :
    Except UpdateError PartitionUpdate := do
  let update ← getForUpdate s tidp update
  let metadata := update.metadata
  let state ← mergeCompactionState s tidp compaction metadata.compactionEpoch
  checkCleanedFromStart newExtents tidp compaction metadata.startOffset
  return { update with
    metadata := { metadata with compactionEpoch := metadata.compactionEpoch + 1 }
    compactionState := some state }

/-- The new extents of a partition that do not end below the start of the log. -/
def liveExtents (startOffset : Int) (extents : List Extent) : List Extent :=
  extents.filter (startOffset ≤ ·.lastOffset)

/-- Adding the new extents to the metadata of a partition. -/
def addExtents (update : Option PartitionUpdate) : Except UpdateError PartitionUpdate := do
  let update ← getForUpdate s tidp update
  let added := liveExtents update.metadata.startOffset extents
  return { update with
    metadata := { update.metadata with
      size := update.metadata.size + (added.map (·.len)).sum
      numExtents := update.metadata.numExtents + added.length } }

abbrev PartitionUpdates := AList fun _ : TopicIdPartition => PartitionUpdate

/-- The start of the log of a partition that is updated. -/
def PartitionUpdates.startOffset (updates : PartitionUpdates) (tidp : TopicIdPartition) : Int :=
  match updates.lookup tidp with
  | some update => update.metadata.startOffset
  | none => 0

namespace ReplaceObjectsDbUpdate

def validateInputs (u : ReplaceObjectsDbUpdate) : Except UpdateError Unit :=
  if u.newObjects.isEmpty then .error .noObjects
  else do
    let newExtents := collectExtents u.newObjects
    newExtents.entries.forM fun p => checkNotInverted p.1 p.2
    let _ ← contiguousIntervalsForExtents newExtents
    u.compactionUpdates.entries.forM fun p => checkCleanedRanges newExtents p.1 p.2

def buildRows (u : ReplaceObjectsDbUpdate) (s : Store) (now : Int) :
    Except UpdateError (List WriteBatchRow) := do
  u.validateInputs
  let newObjects ← validatePreregistered s u.newObjects now
  let newExtents := collectExtents u.newObjects
  let intervals ← contiguousIntervalsForExtents newExtents
  let updates ← updateEach (replaceExtents s) intervals.entries ∅
  let replaced := updates.entries.flatMap (·.2.replaced)
  let oldObjects ← buildObjectRemovalEntries s (replaced.map (·.2)) now
  let updates ← updateEach (compactPartition s newExtents) u.compactionUpdates.entries updates
  let updates : PartitionUpdates ← updateEach (addExtents s) newExtents.entries updates
  let added := newExtents.entries.flatMap fun p =>
    (liveExtents (updates.startOffset p.1) p.2).map (Row.extent p.1)
  let dropped := newExtents.entries.flatMap fun p =>
    p.2.filter (·.lastOffset < updates.startOffset p.1)
  let newObjects := dropped.foldl removeExtent newObjects
  if added.isEmpty then .error .allFilteredOut
  else .ok (added.map .put
    ++ ((replaced.map (·.1)).filter (· ∉ added.map Row.key)).map .tombstone
    ++ objectRows oldObjects
    ++ entryRows newObjects
    ++ updates.entries.flatMap (fun p =>
      p.2.compactionState.toList.map fun state => .put (.compaction p.1 state))
    ++ updates.entries.map fun p => .put (.metadata p.1 p.2.metadata))

end ReplaceObjectsDbUpdate

/-! ## Moving the start of the log, and removing topics and objects -/

structure SetStartOffsetDbUpdate where
  tp : TopicIdPartition
  newStartOffset : Int
  deriving DecidableEq

namespace SetStartOffsetDbUpdate

/-- The extents below the new start of the log. -/
def removedExtents (u : SetStartOffsetDbUpdate) (s : Store) (startOffset : Int) :
    Except UpdateError (List (Key × Extent)) :=
  match s.getInclusiveExtents u.tp (some startOffset) (some (prevOffset u.newStartOffset)) with
  | none => .ok []
  | some range =>
    let result := s.getRows range
    if result.corruption then .error .corruption
    else .ok (result.rows.filter (·.2.lastOffset < u.newStartOffset))

def buildRows (u : SetStartOffsetDbUpdate) (s : Store) (now : Int) :
    Except UpdateError (List WriteBatchRow) :=
  match s.getMetadata u.tp with
  | none => .error (.notFound u.tp)
  | some metadata =>
    if metadata.nextOffset < u.newStartOffset then
      .error (.startAboveNext u.tp u.newStartOffset metadata.nextOffset)
    else if u.newStartOffset ≤ metadata.startOffset then .ok []
    else do
      let removed ← u.removedExtents s metadata.startOffset
      let objects ← buildObjectRemovalEntries s (removed.map (·.2)) now
      -- the last of the terms is the one of the new start offset
      let termKeys := (s.getTermKeys u.tp (some u.newStartOffset)).dropLast
      let compaction :=
        if 0 < metadata.compactionEpoch then (s.getCompactionMetadata u.tp).toList else []
      return removed.map (fun r => .tombstone r.1)
        ++ objectRows objects
        ++ termKeys.map .tombstone
        ++ compaction.map (fun state =>
          .put (.compaction u.tp (state.truncateWithNewStartOffset u.newStartOffset)))
        ++ [.put (.metadata u.tp { metadata with
          startOffset := u.newStartOffset
          size := metadata.size - (removed.map (·.2.len)).sum
          numExtents := metadata.numExtents - removed.length })]

end SetStartOffsetDbUpdate

/-- All extents of a partition. -/
def Store.allExtents : List (Key × Extent) :=
  match s.getInclusiveExtents tidp none none with
  | none => []
  | some range => (s.getRows range).rows

/-- The tombstones for the rows of a partition. -/
def Store.partitionTombstones : List WriteBatchRow :=
  (s.allExtents tidp).map (fun r => .tombstone r.1)
    ++ (s.getTermKeys tidp none).map .tombstone
    ++ [.tombstone (.compaction tidp), .tombstone (.metadata tidp)]

/-- The partitions of some topics. -/
def Store.partitionsOf (topics : List TopicId) : List TopicIdPartition :=
  topics.flatMap fun tid => (s.getPartitionsForTopic tid).map fun pid => ⟨tid, pid⟩

/-- `remove_topics_db_update::build_rows`. -/
def removeTopicsRows (topics : List TopicId) (s : Store) (now : Int) :
    Except UpdateError (List WriteBatchRow) := do
  let partitions := s.partitionsOf topics
  let objects ← buildObjectRemovalEntries s
    (partitions.flatMap fun tidp => (s.allExtents tidp).map (·.2)) now
  return partitions.flatMap s.partitionTombstones ++ objectRows objects

/-- `remove_objects_db_update::build_rows`. -/
def removeObjectsRows (objects : List ObjectId) : List WriteBatchRow :=
  objects.map fun oid => .tombstone (.object oid)

/-- `preregister_objects_db_update::build_rows`. -/
def preregisterObjectsRows (objectIds : List ObjectId) (registeredAt : Int) (s : Store) :
    Except UpdateError (List WriteBatchRow) := do
  objectIds.forM fun oid =>
    if (s.getObject oid).isSome then .error (.alreadyExists oid) else .ok ()
  return objectIds.map fun oid =>
    .put (.object oid { lastUpdated := registeredAt, isPreregistration := true })

/-- `expire_preregistered_objects_db_update::build_rows`. -/
def expirePreregisteredObjectsRows (objectIds : List ObjectId) (now : Int) (s : Store) :
    List WriteBatchRow :=
  objectIds.flatMap fun oid =>
    ((s.getObject oid).filter (·.isPreregistration)).toList.map fun entry =>
      .put (.object oid { entry with isPreregistration := false, lastUpdated := now })

/-! ## Runs of updates -/

/-- The updates of the metastore, with the time at which their rows are built. -/
inductive DbUpdate
  | addObjects (update : AddObjectsDbUpdate) (now : Int)
  | replaceObjects (update : ReplaceObjectsDbUpdate) (now : Int)
  | setStartOffset (update : SetStartOffsetDbUpdate) (now : Int)
  | removeTopics (topics : List TopicId) (now : Int)
  | removeObjects (objects : List ObjectId)
  | preregisterObjects (objectIds : List ObjectId) (registeredAt : Int)
  | expirePreregisteredObjects (objectIds : List ObjectId) (now : Int)

def DbUpdate.buildRows : DbUpdate → Except UpdateError (List WriteBatchRow)
  | addObjects u now => (u.buildRows s now).map (·.rows)
  | replaceObjects u now => u.buildRows s now
  | setStartOffset u now => u.buildRows s now
  | removeTopics topics now => removeTopicsRows topics s now
  | removeObjects objects => .ok (removeObjectsRows objects)
  | preregisterObjects ids registeredAt => preregisterObjectsRows ids registeredAt s
  | expirePreregisteredObjects ids now => .ok (expirePreregisteredObjectsRows ids now s)

/-- Building the rows of an update and applying them. -/
def Store.update (u : DbUpdate) : Option Store :=
  (u.buildRows s).toOption.map s.applyRows

/-- The store accepts an update. -/
def Store.Step (u : DbUpdate) (s' : Store) : Prop :=
  s.update u = some s'

end Redpanda.LevelOne.Lsm
