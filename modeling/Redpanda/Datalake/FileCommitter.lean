import Redpanda.Datalake.State

/-!
# Committing pending files to an Iceberg table

`iceberg_file_committer` takes the pending entries of a topic, appends their files to the
main table and the dead-letter queue table of the topic, and returns the updates that mark the
entries committed. A file is not to be appended again if a coordinator fails in between. So
each snapshot it makes carries the offset of the control topic up to which files are committed
as a property, and an entry that was added at or below the offset found in the table is
skipped.

The function waits for the catalog in between: it is cut here into the steps of a `Task`, each
of which is atomic. Everything that is read while a task waits may have changed meanwhile.

Of the data of a table there are the parts that are read here. What may fail in transferring
files of metadata ends a task like a crash does.
-/

namespace Redpanda.Datalake

open Lib Model

/-- `model::cluster_uuid`. -/
abbrev ClusterUuid := Nat

/-! ## The offset of a commit -/

structure CommitOffsetMetadata where
  /-- Offset of the control topic up to which the pending files are committed. -/
  offset : Int
  /-- Not there if written by an older version. -/
  cluster : Option ClusterUuid
  deriving DecidableEq

/-- A value in a document; of a string there is the uuid that it denotes, if any. -/
inductive JsonValue
  | int64 (n : Int)
  | string (uuid : Option ClusterUuid)
  | other
  deriving DecidableEq

/-- The value of a snapshot property, which may not be an object at all. -/
abbrev JsonDocument := Option (AList fun _ : String => JsonValue)

/-- `parse_offset_error`. -/
inductive ParseOffsetError
  | notAnObject
  | missingOffset
  | offsetNotInt64
  | clusterNotString
  | clusterNotUuid
  deriving DecidableEq

def parseCommitOffsetJson (doc : JsonDocument) : Except ParseOffsetError CommitOffsetMetadata :=
  match doc with
  | none => .error .notAnObject
  | some obj =>
    match obj.lookup "offset" with
    | none => .error .missingOffset
    | some (.int64 offset) =>
      match obj.lookup "cluster" with
      | none => .ok ⟨offset, none⟩
      | some (.string (some cluster)) => .ok ⟨offset, some cluster⟩
      | some (.string none) => .error .clusterNotUuid
      | some _ => .error .clusterNotString
    | some _ => .error .offsetNotInt64

/-- `to_json_str`. -/
def toJson (m : CommitOffsetMetadata) : JsonDocument :=
  let obj := (∅ : AList fun _ : String => JsonValue).insert "offset" (.int64 m.offset)
  match m.cluster with
  | none => some obj
  | some cluster => some (obj.insert "cluster" (.string (some cluster)))

theorem parseCommitOffsetJson_toJson (m : CommitOffsetMetadata) :
    parseCommitOffsetJson (toJson m) = .ok m := by
  obtain ⟨offset, _ | cluster⟩ := m
  · rfl
  · rfl

/-! ## Tables -/

structure Snapshot where
  id : SnapshotId
  parentSnapshotId : Option SnapshotId
  /-- The property `redpanda.commit-metadata` of the summary. -/
  commitMetaProp : Option JsonDocument
  deriving DecidableEq

structure Schema where
  schemaId : Int
  deriving DecidableEq

structure PartitionSpec where
  specId : Int
  /-- The names of the fields. -/
  fields : List String
  deriving DecidableEq

structure TableMetadata where
  schemas : List Schema := []
  currentSchemaId : Int := 0
  partitionSpecs : List PartitionSpec := []
  defaultSpecId : Int := 0
  currentSnapshotId : Option SnapshotId := none
  snapshots : Option (List Snapshot) := none
  deriving DecidableEq

namespace TableMetadata

variable (m : TableMetadata)

def getPartitionSpec (id : Int) : Option PartitionSpec :=
  m.partitionSpecs.find? fun s => s.specId = id

def getSchema (id : Int) : Option Schema :=
  m.schemas.find? fun s => s.schemaId = id

/-- The snapshots of the table, in the order in which they were added. -/
def history : List Snapshot :=
  m.snapshots.getD []

/-- `add_snapshot` followed by `set_snapshot_ref` of the main branch. -/
def addSnapshot (snapshot : Snapshot) : TableMetadata :=
  { m with
    snapshots := some (m.history ++ [snapshot])
    currentSnapshotId := some snapshot.id }

end TableMetadata

/-- The offset in the commit property of a snapshot, which counts only if it was written by
    the cluster. Without a uuid it is assumed to be. -/
def Snapshot.commitOffset (snap : Snapshot) (cluster : ClusterUuid) :
    Except ParseOffsetError (Option Int) :=
  match snap.commitMetaProp with
  | none => .ok none
  | some doc => do
    let m ← parseCommitOffsetJson doc
    return if m.cluster = none ∨ m.cluster = some cluster then some m.offset else none

/-- The loop from a snapshot to its ancestors, up to the first with an offset. There are
    no more of them than snapshots. -/
def committedOffsetFrom (snapshots : List Snapshot) (cluster : ClusterUuid) :
    Nat → SnapshotId → Except ParseOffsetError (Option Int)
  | 0, _ => .ok none
  | n + 1, id =>
    match snapshots.find? fun snap => snap.id = id with
    | none => .ok none
    | some snap =>
      match snap.commitOffset cluster with
      | .error e => .error e
      | .ok (some offset) => .ok (some offset)
      | .ok none =>
        match snap.parentSnapshotId with
        | none => .ok none
        | some parent => committedOffsetFrom snapshots cluster n parent

def getIcebergCommittedOffset (table : TableMetadata) (cluster : ClusterUuid) :
    Except ParseOffsetError (Option Int) :=
  match table.currentSnapshotId, table.snapshots with
  | some id, some snapshots => committedOffsetFrom snapshots cluster snapshots.length id
  | _, _ => .ok none

/-! ## Files to append -/

/-- Which pending file it is: the partition, the entry, and the index of the file in it. -/
structure FileOrigin where
  pid : PartitionId
  entry : PendingEntry
  index : Nat
  deriving DecidableEq

/-- `iceberg::data_file`, with the values of the partition key in `V`. -/
structure IcebergDataFile (V : Type) where
  filePath : String
  partition : List (Option V)
  recordCount : Nat
  fileSizeBytes : Nat

/-- `iceberg::file_to_append`. The origin is not part of the data: it is kept in order to tell
    which pending files a transaction has appended. -/
structure FileToAppend (V : Type) where
  file : IcebergDataFile V
  schemaId : Int
  partitionSpecId : Int
  origin : FileOrigin

/-- `file_committer::errc`. -/
inductive Errc
  | failed
  | shuttingDown
  deriving DecidableEq

/-- What a committer is set up with. -/
structure Committer (V : Type) where
  cluster : ClusterUuid
  /-- `manifest_io::to_uri`. -/
  toUri : String → String
  intValue : Int → V
  /-- `value_from_bytes`, at the type of the field of the key with an index. -/
  valueFromBytes : Schema → PartitionSpec → Nat → List UInt8 → Option V

section Committer

variable {V : Type} (c : Committer V) (table : TableMetadata) (f : DataFile)

def buildPartitionKeyStruct (schema : Schema) : Except Errc (List (Option V)) :=
  match table.getPartitionSpec f.partitionSpecId with
  | none => .error .failed
  | some partitionSpec =>
    if partitionSpec.fields.length ≠ f.partitionKey.length then .error .failed
    else
      f.partitionKey.zipIdx.mapM fun (fieldBytes, i) =>
        match fieldBytes with
        | none => .ok none
        | some bytes =>
          match c.valueFromBytes schema partitionSpec i bytes with
          | none => .error .failed
          | some value => .ok (some value)

def buildPartitionKey : Except Errc (List (Option V)) :=
  -- A file created by a legacy version, with hourly partitioning.
  if f.tableSchemaId < 0 then .ok [some (c.intValue f.hourDeprecated)]
  else
    match table.getSchema f.tableSchemaId with
    | none => .error .failed
    | some schema => buildPartitionKeyStruct c table f schema

/-- The file to append for a pending one. -/
def fileToAppend (origin : FileOrigin) : Except Errc (FileToAppend V) := do
  let pk ← buildPartitionKey c table f
  return {
    file := ⟨c.toUri f.remotePath, pk, f.rowCount, f.fileSizeBytes⟩
    schemaId := if f.tableSchemaId ≥ 0 then f.tableSchemaId else table.currentSchemaId
    partitionSpecId := if f.partitionSpecId ≥ 0 then f.partitionSpecId else table.defaultSpecId
    origin }

/-! ## The builder of a commit -/

/-- Accumulates files to commit to an Iceberg table and manages the commit process. -/
structure TableCommitBuilder (V : Type) where
  table : TableMetadata
  tableCommitOffset : Option Int
  icbFiles : List (FileToAppend V) := []
  newCommittedOffset : Option Int := none

namespace TableCommitBuilder

def create : Except Errc (TableCommitBuilder V) :=
  match getIcebergCommittedOffset table c.cluster with
  | .error _ => .error .failed
  | .ok tableCommitOffset => .ok { table, tableCommitOffset }

variable (b : TableCommitBuilder V) (pid : PartitionId) (e : PendingEntry) (files : List DataFile)

def shouldSkipEntry (addedPendingAt : Int) : Bool :=
  match b.tableCommitOffset with
  | none => false
  | some offset => addedPendingAt ≤ offset

/-- `std::max` of the offset so far, if any, and a new one. -/
def maxOffset (o : Option Int) (addedPendingAt : Int) : Int :=
  match o with
  | none => addedPendingAt
  | some offset => max offset addedPendingAt

/-- The files to append for an entry. One that is skipped was committed to the table already. -/
def filesToAppend : Except Errc (List (FileToAppend V)) :=
  if b.shouldSkipEntry e.addedPendingAt then .ok []
  else files.zipIdx.mapM fun (f, i) => fileToAppend c b.table f ⟨pid, e, i⟩

def processPendingEntry : Except Errc (TableCommitBuilder V) := do
  let newFiles ← b.filesToAppend c pid e files
  return { b with
    icbFiles := b.icbFiles ++ newFiles
    newCommittedOffset := some (maxOffset b.newCommittedOffset e.addedPendingAt) }

end TableCommitBuilder

/-- Whether the partition key of a file fits the table. -/
def checkFile (f : FileToAppend V) : Bool :=
  match table.getPartitionSpec f.partitionSpecId with
  | none => false
  | some pspec => f.file.partition.length = pspec.fields.length

/-- The snapshot on which a new one is based. -/
def oldSnapshotId : Except Errc (Option SnapshotId) :=
  match table.history, table.currentSnapshotId with
  | [], none => .ok none
  | [], some id => if id = invalidSnapshotId then .ok none else .error .failed
  | _ :: _, none => .error .failed
  | snap :: snaps, some id => if id ∈ (snap :: snaps).map (·.id) then .ok (some id) else .error .failed

/-- `merge_append_action::build_updates`: the metadata with a new snapshot, whose id is the
    one that was generated for it. -/
def mergeAppend (files : List (FileToAppend V)) (prop : JsonDocument)
    (newSnapId : SnapshotId) : Except Errc TableMetadata :=
  if !files.all (checkFile table) then .error .failed
  else do
    let oldSnapId ← oldSnapshotId table
    return table.addSnapshot
      { id := newSnapId, parentSnapshotId := oldSnapId, commitMetaProp := some prop }

/-- A table in the catalog, with the files that were appended by each of the transactions
    of committers that succeeded. -/
structure Table (V : Type) where
  metadata : TableMetadata
  commits : List (List (FileToAppend V)) := []

/-- `table_commit_builder::commit`, at the moment at which the catalog decides about the
    transaction: it succeeds only if the metadata that it was built from is still current.
    The metadata that is returned, and the table after that. -/
def TableCommitBuilder.commit (b : TableCommitBuilder V) (newSnapId : SnapshotId)
    (table : Table V) : Except Errc (TableMetadata × Table V) :=
  if b.icbFiles.isEmpty then .ok (b.table, table)
  else
    match b.newCommittedOffset with
    -- New Iceberg files implies new commit metadata.
    | none => .error .failed
    | some offset => do
      let metadata ← mergeAppend b.table b.icbFiles (toJson ⟨offset, some c.cluster⟩) newSnapId
      if b.table = table.metadata then
        return (metadata, ⟨metadata, table.commits ++ [b.icbFiles]⟩)
      else throw .failed

/-! ## Committing the files of a topic -/

/-- The tables of a topic: its main table and its dead-letter queue table. -/
inductive TableKind
  | main
  | dlq
  deriving DecidableEq

/-- The files of a range that belong into a table. -/
def TranslatedOffsetRange.filesFor (r : TranslatedOffsetRange) : TableKind → List DataFile
  | .main => r.files
  | .dlq => r.dlqFiles

/-- `has_pending_main_entries` and `has_pending_dlq_entries`. -/
def TopicState.hasPendingEntriesFor (t : TopicState) : TableKind → Bool
  | .main => t.hasPendingMainEntries
  | .dlq => t.hasPendingDlqEntries

/-- The pending entries of a topic in the order in which they are visited. -/
def TopicState.pending (t : TopicState) : List (PartitionId × PendingEntry) :=
  t.pidToPendingFiles.entries.flatMap fun p => p.2.pendingEntries.map fun e => (p.1, e)

/-- `main_table_commit_builder` and `dlq_table_commit_builder`. -/
abbrev Builders (V : Type) := TableKind → Option (TableCommitBuilder V)

structure OffsetAndBytes where
  lastOffset : Int
  kafkaBytesProcessed : Nat
  deriving DecidableEq

abbrev PendingCommits := AList fun _ : PartitionId => OffsetAndBytes

/-- The last entry of a partition gives the offset to mark committed. -/
def PendingCommits.visit (m : PendingCommits) (pid : PartitionId) (e : PendingEntry) :
    PendingCommits :=
  m.insert pid ⟨e.data.lastOffset,
    ((m.lookup pid).elim 0 (·.kafkaBytesProcessed)) + e.data.kafkaBytesProcessed⟩

/-- The files of an entry for a table. -/
def Builders.process (bs : Builders V) (k : TableKind) (pid : PartitionId) (e : PendingEntry) :
    Except Errc (Builders V) :=
  if (e.data.filesFor k).isEmpty then .ok bs
  else
    match bs k with
    -- Should have a table builder.
    | none => .error .failed
    | some b => do
      let b ← b.processPendingEntry c pid e (e.data.filesFor k)
      return Function.update bs k (some b)

/-- The loop over the pending entries. -/
def processEntries (entries : List (PartitionId × PendingEntry)) (bs : Builders V) :
    Except Errc (PendingCommits × Builders V) :=
  entries.foldlM (fun (x : PendingCommits × Builders V) (p : PartitionId × PendingEntry) => do
    let bs ← x.2.process c .main p.1 p.2
    let bs ← bs.process c .dlq p.1 p.2
    return (x.1.visit p.1 p.2, bs)) (∅, bs)

/-- The updates to return, built with the state of the replica at that time. -/
def buildUpdates (topic : Topic) (topicRevision : RevisionId) (state : TopicsState)
    (pendingCommits : PendingCommits) : Except Errc (List MarkFilesCommittedUpdate) :=
  pendingCommits.entries.mapM fun p =>
    match MarkFilesCommittedUpdate.build state ⟨topic, p.1⟩ topicRevision p.2.lastOffset
      p.2.kafkaBytesProcessed with
    | .error _ => .error .failed
    | .ok update => .ok update

/-- How far `commit_topic_files_to_catalog` has come, with its local variables. -/
inductive Task (V : Type)
  /-- To load a table for the copy of the state of the topic. -/
  | load (k : TableKind) (tpState : TopicState) (bs : Builders V)
  /-- To process the pending entries. -/
  | process (tpState : TopicState) (bs : Builders V)
  /-- To commit to a table. -/
  | commit (k : TableKind) (updates : List MarkFilesCommittedUpdate) (bs : Builders V)
  /-- Returning the updates. -/
  | done (updates : List MarkFilesCommittedUpdate)

/-- A table is loaded only if there are entries for it. -/
def Builders.load (bs : Builders V) (k : TableKind) (tpState : TopicState)
    (metadata : TableMetadata) : Except Errc (Builders V) :=
  if tpState.hasPendingEntriesFor k then do
    let b ← TableCommitBuilder.create c metadata
    return Function.update bs k (some b)
  else .ok bs

namespace Task

/-- The state of the topic is copied at the start. -/
def start (topic : Topic) (state : TopicsState) : Task V :=
  match state.topicToState.lookup topic with
  | none => .done []
  | some tpState =>
    if tpState.hasPendingEntries then .load .main tpState fun _ => none else .done []

/-- Loading a table. The main table goes first. -/
def loadTable (k : TableKind) (tpState : TopicState) (bs : Builders V) (metadata : TableMetadata) :
    Except Errc (Task V) := do
  let bs ← bs.load c k tpState metadata
  match k with
  | .main => return .load .dlq tpState bs
  | .dlq => return .process tpState bs

/-- Processing the entries, and building the updates with the state at that time. -/
def processAll (topic : Topic) (tpState : TopicState) (bs : Builders V) (state : TopicsState) :
    Except Errc (Task V) := do
  let (pendingCommits, bs) ← processEntries c tpState.pending bs
  if pendingCommits.entries.isEmpty then
    return .done []
  else
    let updates ← buildUpdates topic tpState.revision state pendingCommits
    return .commit .dlq updates bs

/-- Committing to a table, with the task and the table after that. The dead-letter queue
    table goes first; the snapshot of the main table is noted in the updates. -/
def commitTable (k : TableKind) (updates : List MarkFilesCommittedUpdate) (bs : Builders V)
    (newSnapId : SnapshotId) (table : Table V) : Except Errc (Task V × Table V) :=
  match k, bs k with
  | .dlq, none => .ok (.commit .main updates bs, table)
  | .main, none => .ok (.done updates, table)
  | .dlq, some b => do
    let (_, table) ← b.commit c newSnapId table
    return (.commit .main updates bs, table)
  | .main, some b => do
    let (metadata, table) ← b.commit c newSnapId table
    match metadata.currentSnapshotId with
    | none => return (.done updates, table)
    | some id => return (.done (updates.map fun u => { u with snapshotId := id }), table)

end Task

end Committer

end Redpanda.Datalake
