import Redpanda.Lib.Except
import Redpanda.Model.Fundamental

/-!
# The state of the datalake coordinator

The coordinator keeps, for each Kafka partition, the files that were translated and are yet
to be added to the Iceberg catalog (*pending entries*), and the last offset that was. Its
state is replicated: updates are records of a control topic, and every replica applies them
in the order of the log (`CoordinatorStm.doApply`). An update is checked against the state
(`canApply`) and then changes it (`apply`); one that is refused leaves the state as it is.

Hash maps are association lists (`AList`): nothing depends on the order in which their
entries are visited.
-/

namespace Redpanda.Datalake

open Lib Model

abbrev Topic := String

/-- `model::partition_id`. -/
abbrev PartitionId := Int

/-- `model::revision_id`. -/
abbrev RevisionId := Int

/-- `iceberg::snapshot_id`. -/
abbrev SnapshotId := Int

/-- `iceberg::invalid_snapshot_id`. -/
def invalidSnapshotId : SnapshotId := -1

structure TopicPartition where
  topic : Topic
  partition : PartitionId
  deriving DecidableEq

/-- Represents a file that exists in object storage. -/
structure DataFile where
  remotePath : String := ""
  rowCount : Nat := 0
  fileSizeBytes : Nat := 0
  hourDeprecated : Int := 0
  tableSchemaId : Int := -1
  partitionSpecId : Int := -1
  /-- The serialized fields of the partition key; a field may be null. -/
  partitionKey : List (Option (List UInt8)) := []
  deriving DecidableEq

/-- Represents a translated range of Kafka offsets, both ends inclusive. -/
structure TranslatedOffsetRange where
  startOffset : Int
  lastOffset : Int
  /-- Files for main table. -/
  files : List DataFile := []
  /-- Files for dead-letter queue table. -/
  dlqFiles : List DataFile := []
  kafkaBytesProcessed : Nat := 0
  deriving DecidableEq

structure PendingEntry where
  data : TranslatedOffsetRange
  /-- Offset of the control topic partition at which the entry was added. -/
  addedPendingAt : Int
  deriving DecidableEq

/-- State tracked per Kafka partition. -/
structure PartitionState where
  pendingEntries : List PendingEntry := []
  /-- The last (inclusive) Kafka offset confirmed to be sent to the Iceberg catalog. -/
  lastCommitted : Option Int := none
  deriving DecidableEq

/-- `topic_state::lifecycle_state_t`. -/
inductive LifecycleState
  | live
  | closed
  | purged
  deriving DecidableEq

/-- The values of the enumeration, by which lifecycle states are compared. -/
def LifecycleState.toNat : LifecycleState → Nat
  | live => 0
  | closed => 1
  | purged => 2

structure TopicState where
  revision : RevisionId := Offset.min
  pidToPendingFiles : AList fun _ : PartitionId => PartitionState := ∅
  lifecycleState : LifecycleState := .live
  /-- A 64 bit counter. -/
  totalKafkaBytesProcessed : Nat := 0
  lastCommittedSnapshotId : Option SnapshotId := none

structure TopicsState where
  topicToState : AList fun _ : Topic => TopicState := ∅

namespace TopicState

variable (t : TopicState)

/-- The state of a partition, which `operator[]` creates if it is not there. -/
def partition (pid : PartitionId) : PartitionState :=
  (t.pidToPendingFiles.lookup pid).getD {}

def setPartition (pid : PartitionId) (p : PartitionState) : TopicState :=
  { t with pidToPendingFiles := t.pidToPendingFiles.insert pid p }

def hasPendingEntries : Bool :=
  t.pidToPendingFiles.entries.any fun p => !p.2.pendingEntries.isEmpty

def hasPendingMainEntries : Bool :=
  t.pidToPendingFiles.entries.any fun p => p.2.pendingEntries.any fun e => !e.data.files.isEmpty

def hasPendingDlqEntries : Bool :=
  t.pidToPendingFiles.entries.any fun p =>
    p.2.pendingEntries.any fun e => !e.data.dlqFiles.isEmpty

def addKafkaBytesProcessed (bytes : Nat) : TopicState :=
  { t with totalKafkaBytesProcessed := (t.totalKafkaBytesProcessed + bytes) % 2 ^ 64 }

end TopicState

namespace TopicsState

variable (s : TopicsState)

/-- The state of a topic, which `operator[]` creates if it is not there. -/
def topic (topic : Topic) : TopicState :=
  (s.topicToState.lookup topic).getD {}

def setTopic (topic : Topic) (t : TopicState) : TopicsState :=
  { s with topicToState := s.topicToState.insert topic t }

def partitionState (tp : TopicPartition) : Option PartitionState :=
  (s.topicToState.lookup tp.topic).bind fun t => t.pidToPendingFiles.lookup tp.partition

end TopicsState

/-- `stm_update_error`: why an update is refused, with what the message of the error tells. -/
inductive StmUpdateError
  | noEntries
  | notRegistered (topic : Topic) (revision : RevisionId)
  | revisionMismatch (topic : Topic) (update current : RevisionId)
  | alreadyClosed (topic : Topic) (revision : RevisionId)
  | notContiguous (lastAddedOffset requested : Int)
  | noFiles
  | alreadyCommitted (lastCommitted requested : Int)
  | noEntryEndingIn (requested : Int)
  | obsoleteRevision (topic : Topic) (current update : RevisionId)
  | notPurged (topic : Topic) (current update : RevisionId)
  | invalidTransition (topic : Topic) (revision : RevisionId)
  | hasPendingEntries (topic : Topic) (revision : RevisionId)
  deriving DecidableEq

/-! ## Adding files -/

/-- An update to add files for a given Kafka partition. -/
structure AddFilesUpdate where
  tp : TopicPartition
  topicRevision : RevisionId
  entries : List TranslatedOffsetRange
  deriving DecidableEq

/-- The offset after which new entries of a partition are to start, if there ever were any. -/
def PartitionState.lastAddedOffset (p : PartitionState) : Option Int :=
  match p.pendingEntries.getLast? with
  | some e => some e.data.lastOffset
  | none => p.lastCommitted

namespace AddFilesUpdate

variable (u : AddFilesUpdate) (s : TopicsState)

/-- The check of the first new entry against what the partition has. -/
def checkPartition (first : TranslatedOffsetRange) (p : PartitionState) :
    Except StmUpdateError Unit :=
  match p.lastAddedOffset with
  -- No entries at all, this partition hasn't ever added any files.
  | none => .ok ()
  | some lastAddedOffset =>
    if nextOffset lastAddedOffset = first.startOffset then .ok ()
    else .error (.notContiguous lastAddedOffset first.startOffset)

def canApply : Except StmUpdateError Unit :=
  match u.entries with
  | [] => .error .noEntries
  | first :: _ =>
    match s.topicToState.lookup u.tp.topic with
    | none => .error (.notRegistered u.tp.topic u.topicRevision)
    | some curTopic =>
      if u.topicRevision ≠ curTopic.revision then
        .error (.revisionMismatch u.tp.topic u.topicRevision curTopic.revision)
      else if curTopic.lifecycleState ≠ .live then
        .error (.alreadyClosed u.tp.topic curTopic.revision)
      else
        match curTopic.pidToPendingFiles.lookup u.tp.partition with
        | none => .ok ()
        | some prtState => checkPartition first prtState

def apply (appliedOffset : Int) :
    Except StmUpdateError TopicsState := do
  u.canApply s
  let tpState := s.topic u.tp.topic
  let prtState := tpState.partition u.tp.partition
  let added := u.entries.map fun e => (⟨e, appliedOffset⟩ : PendingEntry)
  return s.setTopic u.tp.topic (tpState.setPartition u.tp.partition
    { prtState with pendingEntries := prtState.pendingEntries ++ added })

end AddFilesUpdate

/-! ## Marking files committed -/

/-- An update to untrack pending files, e.g. after committing them to Iceberg. -/
structure MarkFilesCommittedUpdate where
  tp : TopicPartition
  topicRevision : RevisionId
  newCommitted : Int
  kafkaBytesProcessed : Nat := 0
  snapshotId : SnapshotId := invalidSnapshotId
  deriving DecidableEq

namespace MarkFilesCommittedUpdate

variable (u : MarkFilesCommittedUpdate) (s : TopicsState)

/-- The check of the new committed offset against what the partition has. -/
def checkPartition (newCommitted : Int) (p : PartitionState) : Except StmUpdateError Unit :=
  if p.pendingEntries.isEmpty then .error .noFiles
  else
    match p.lastCommitted with
    | some lastCommitted =>
      if lastCommitted ≥ newCommitted then .error (.alreadyCommitted lastCommitted newCommitted)
      else checkEntries p
    | none => checkEntries p
where
  /-- The new committed offset has to be the last one of an entry. -/
  checkEntries (p : PartitionState) : Except StmUpdateError Unit :=
    if p.pendingEntries.any fun e => e.data.lastOffset = newCommitted then .ok ()
    else .error (.noEntryEndingIn newCommitted)

def canApply : Except StmUpdateError Unit :=
  match s.topicToState.lookup u.tp.topic with
  | none => .error (.notRegistered u.tp.topic u.topicRevision)
  | some curTopic =>
    if u.topicRevision ≠ curTopic.revision then
      .error (.revisionMismatch u.tp.topic u.topicRevision curTopic.revision)
    else
      match curTopic.pidToPendingFiles.lookup u.tp.partition with
      | none => .error .noFiles
      | some prtState => checkPartition u.newCommitted prtState

/-- Dropping the entries at the front that end at or below the new committed offset. -/
def commitPartition (newCommitted : Int) (p : PartitionState) : PartitionState where
  pendingEntries := p.pendingEntries.dropWhile fun e => e.data.lastOffset ≤ newCommitted
  lastCommitted := some newCommitted

def apply : Except StmUpdateError TopicsState := do
  u.canApply s
  let tpState := { s.topic u.tp.topic with lastCommittedSnapshotId := some u.snapshotId }
  let filesState := commitPartition u.newCommitted (tpState.partition u.tp.partition)
  return s.setTopic u.tp.topic
    ((tpState.setPartition u.tp.partition filesState).addKafkaBytesProcessed u.kafkaBytesProcessed)

/-- An update that can be applied to the state. -/
def build (s : TopicsState) (tp : TopicPartition) (topicRevision : RevisionId) (o : Int)
    (kafkaBytesProcessed : Nat) : Except StmUpdateError MarkFilesCommittedUpdate := do
  let update : MarkFilesCommittedUpdate :=
    { tp, topicRevision, newCommitted := o, kafkaBytesProcessed }
  update.canApply s
  return update

end MarkFilesCommittedUpdate

/-! ## Changing the lifecycle state of a topic -/

/-- An update to change topic lifecycle state after it has been deleted. -/
structure TopicLifecycleUpdate where
  topic : Topic
  revision : RevisionId
  newState : LifecycleState
  deriving DecidableEq

namespace TopicLifecycleUpdate

variable (u : TopicLifecycleUpdate) (s : TopicsState)

/-- Whether the update changes anything, unless it is refused. -/
def canApply : Except StmUpdateError Bool :=
  match s.topicToState.lookup u.topic with
  | none => .ok true
  | some curState =>
    if u.revision < curState.revision then
      .error (.obsoleteRevision u.topic curState.revision u.revision)
    else if u.revision > curState.revision then
      if curState.lifecycleState ≠ .purged then
        .error (.notPurged u.topic curState.revision u.revision)
      -- Old revision is fully purged, we can now transition to the new revision.
      else .ok true
    else if u.newState.toNat < curState.lifecycleState.toNat then
      .error (.invalidTransition u.topic curState.revision)
    else if u.newState.toNat > curState.lifecycleState.toNat then
      if u.newState = .purged ∧ curState.hasPendingEntries then
        .error (.hasPendingEntries u.topic curState.revision)
      else .ok true
    else .ok false

def apply : Except StmUpdateError TopicsState := do
  let changes ← u.canApply s
  if changes then
    let tState := s.topic u.topic
    return s.setTopic u.topic
      { tState with
        revision := u.revision
        lifecycleState := u.newState
        pidToPendingFiles := if u.newState = .purged then ∅ else tState.pidToPendingFiles }
  else
    return s

end TopicLifecycleUpdate

/-! ## Resetting a topic -/

structure PartitionStateOverride where
  lastCommitted : Option Int := none
  deriving DecidableEq

structure ResetTopicStateUpdate where
  topic : Topic
  topicRevision : RevisionId
  resetAllPartitions : Bool := false
  partitionOverrides : AList fun _ : PartitionId => PartitionStateOverride := ∅

namespace ResetTopicStateUpdate

variable (u : ResetTopicStateUpdate) (s : TopicsState)

def canApply : Except StmUpdateError Unit :=
  match s.topicToState.lookup u.topic with
  -- No topic at all, the reset is a no-op.
  | none => .ok ()
  | some curTopic =>
    if u.topicRevision ≠ curTopic.revision then
      .error (.revisionMismatch u.topic u.topicRevision curTopic.revision)
    else .ok ()

/-- Resetting the state of a partition; the committed offset stays if none is given. -/
def overridePartition (po : PartitionStateOverride) (p : PartitionState) : PartitionState where
  pendingEntries := []
  lastCommitted := po.lastCommitted <|> p.lastCommitted

def apply : Except StmUpdateError TopicsState := do
  u.canApply s
  match s.topicToState.lookup u.topic with
  | none => return s
  | some tState =>
    let tState := if u.resetAllPartitions then { tState with pidToPendingFiles := ∅ } else tState
    return s.setTopic u.topic (u.partitionOverrides.entries.foldl
      (fun t p => t.setPartition p.1 (overridePartition p.2 (t.partition p.1))) tState)

end ResetTopicStateUpdate

/-! ## The state machine -/

/-- The records of the control topic (`update_key`). -/
inductive Update
  | addFiles (u : AddFilesUpdate)
  | markFilesCommitted (u : MarkFilesCommittedUpdate)
  | topicLifecycleUpdate (u : TopicLifecycleUpdate)
  | resetTopicState (u : ResetTopicStateUpdate)

/-- Applying the update in the record at an offset of the control topic. -/
def Update.apply (s : TopicsState) (o : Int) : Update → Except StmUpdateError TopicsState
  | addFiles u => u.apply s o
  | markFilesCommitted u => u.apply s
  | topicLifecycleUpdate u => u.apply s
  | resetTopicState u => u.apply s

/-- `coordinator_stm::do_apply`, for a record: an update that is refused is only logged. -/
def CoordinatorStm.doApply (s : TopicsState) (o : Int) (u : Update) : TopicsState :=
  match u.apply s o with
  | .ok s' => s'
  | .error _ => s

end Redpanda.Datalake
