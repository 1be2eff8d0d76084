import Redpanda.Compaction.Filter
import Redpanda.Lib.BinarySearch

/-!
# Time queries on a local log

A time query asks for the first data record in a range of offsets whose timestamp is at least a
given one. The answer is found in four steps (`Log.timequery`):

* The first segment is taken that overlaps the range and whose index has a large enough maximum
  timestamp (`accepts`).
* If the timestamps of the batches are monotonic, the sparse index of the segment gives a batch to
  start from (`IndexState.findNearestTime`).
* The reader returns the first data batch from there on with a large enough maximum timestamp in its
  header (`readBatch`). It seeks with the index, too (`IndexState.findNearestOffset`).
* `batchTimequery` looks for a record in this batch.

Each segment has the index that was built when its batches were appended (`Segment.append`). Offsets
and timestamps are integers, without overflow. All batches are on disk and whole. The cache of the
reader, which holds some of them and skips the same ones, is left out.
-/

namespace Redpanda.TimeQuery

open Compaction Model Lib List

/-- A batch with its records. -/
structure Batch where
  header : RecordBatchHeader
  records : List Record
  deriving DecidableEq

namespace Batch

variable (b : Batch)

def baseOffset : Int :=
  b.header.baseOffset

def lastOffset : Int :=
  b.header.baseOffset + b.header.lastOffsetDelta

def offsetOf (r : Record) : Int :=
  b.header.baseOffset + r.offsetDelta

def timestampOf (r : Record) : Int :=
  match b.header.timestampType with
  | .createTime => b.header.firstTimestamp + r.timestampDelta
  | .appendTime => b.header.maxTimestamp

/-- The offsets of the records are within those of the header, and so are their timestamps. -/
structure Wf : Prop where
  size_pos : 0 < b.header.sizeBytes
  base_le_last : b.baseOffset ≤ b.lastOffset
  sorted : b.records.Pairwise fun r r' => r.offsetDelta < r'.offsetDelta
  base_le : ∀ r ∈ b.records, b.baseOffset ≤ b.offsetOf r
  le_last : ∀ r ∈ b.records, b.offsetOf r ≤ b.lastOffset
  le_max : ∀ r ∈ b.records, b.timestampOf r ≤ b.header.maxTimestamp

end Batch

/-! ## The index of a segment -/

/-- `offset_time_index`: a time relative to the first one of the segment, as an unsigned number of
    32 bits. Times out of range are clamped. -/
def offsetTimeIndex (withOffset : Bool) (ts : Int) : Nat :=
  if withOffset then (max (-2 ^ 31) (min ts (2 ^ 31 - 1)) + 2 ^ 31).toNat
  else (max 0 (min ts (2 ^ 32 - 1))).toNat

structure IndexEntry where
  relativeOffset : Nat
  relativeTime : Nat
  filepos : Nat
  deriving DecidableEq

/-- `index_state`, with its columns as a list of entries. -/
structure IndexState where
  baseOffset : Int
  maxOffset : Int := 0
  baseTimestamp : Int := 0
  maxTimestamp : Int := 0
  entries : List IndexEntry := []
  batchTimestampsAreMonotonic : Bool := true
  withOffset : Bool
  nonDataTimestamps : Bool := false
  deriving DecidableEq

namespace IndexState

variable (x : IndexState) (h : RecordBatchHeader)

/-- `try_reset_relative_time_index`, which fails an assertion if there is not exactly one entry. -/
def tryResetRelativeTimeIndex (t : Nat) : List IndexEntry → List IndexEntry
  | [e] => [{ e with relativeTime := t }]
  | es => es

/-- The first batch with user data overrides the timestamps of a batch without. -/
def resetTimestamps (userData : Bool) : IndexState :=
  if userData ∧ x.nonDataTimestamps then
    { x with
      entries := tryResetRelativeTimeIndex (offsetTimeIndex x.withOffset h.maxTimestamp) x.entries
      baseTimestamp := h.firstTimestamp
      maxTimestamp := h.firstTimestamp
      nonDataTimestamps := false }
  else x

/-- The timestamps of the first batch. -/
def initTimestamps : IndexState :=
  if x.entries = [] then
    { x with baseTimestamp := h.firstTimestamp, maxTimestamp := h.firstTimestamp }
  else x

/-- The last timestamp of a batch. Some clients leave the maximum uninitialized. -/
def lastTimestamp (userData : Bool) : Int :=
  if userData then max h.firstTimestamp h.maxTimestamp else h.maxTimestamp

/-- `maybe_index`: the index after a batch, and if the batch has an entry. -/
def maybeIndex (accumulator step filepos : Nat) (h : RecordBatchHeader) (userData : Bool) :
    IndexState × Bool :=
  let x := x.resetTimestamps h userData
  let isEmpty := decide (x.entries = [])
  let x := x.initTimestamps h
  let last := lastTimestamp h userData
  let x :=
    { x with
      maxOffset := h.baseOffset + h.lastOffsetDelta
      maxTimestamp := if userData then max x.maxTimestamp last else x.maxTimestamp }
  if (step ≤ accumulator ∧ userData ∨ isEmpty) ∧ h.baseOffset - x.baseOffset ≤ 2 ^ 32 - 1 then
    ({ x with
        entries := x.entries ++
          [⟨(h.baseOffset - x.baseOffset).toNat,
            offsetTimeIndex x.withOffset (last - x.baseTimestamp), filepos⟩]
        nonDataTimestamps := x.nonDataTimestamps || isEmpty && !userData },
      true)
  else (x, false)

/-- `translate_index_entry`, without the timestamp. -/
def entryOffset (e : IndexEntry) : Int :=
  e.relativeOffset + x.baseOffset

/-- `find_entry`: the entry before the first one with a timestamp that is large enough. -/
def findEntry (ts : Int) : Option IndexEntry :=
  let needle := offsetTimeIndex x.withOffset ts
  let dist := lowerBound (fun e : IndexEntry => decide (e.relativeTime < needle)) x.entries
  if dist = x.entries.length then none else x.entries[dist - 1]?

/-- `find_nearest` for a timestamp. -/
def findNearestTime (t : Int) : Option IndexEntry :=
  if t < x.baseTimestamp then none else x.findEntry (t - x.baseTimestamp)

/-- `find_nearest` for an offset. -/
def findNearestOffset (o : Int) : Option IndexEntry :=
  if o < x.baseOffset ∨ x.entries = [] then none
  else if 2 ^ 32 - 1 < o - x.baseOffset ∨ 2 ^ 32 - 1 < x.maxOffset - x.baseOffset then
    x.entries.head?
  else
    let needle := (o - x.baseOffset).toNat
    let ix := lowerBound (fun e : IndexEntry => decide (e.relativeOffset < needle)) x.entries
    let ix := if ix = x.entries.length then x.entries.length - 1 else ix
    (x.entries.take (ix + 1)).reverse.find? fun e => e.relativeOffset ≤ needle

end IndexState

/-- What is the same for all segments of a log: the distance of entries in the index, if times are
    stored with an offset, and if all batches count as user data. -/
structure IndexConfig where
  step : Nat
  withOffset : Bool := true
  isInternalTopic : Bool := false

variable (cfg : IndexConfig)

def IndexConfig.userData (h : RecordBatchHeader) : Bool :=
  cfg.isInternalTopic || decide (h.type = .raftData)

/-- `segment_index`. -/
structure SegmentIndex where
  state : IndexState
  acc : Nat := 0
  lastBatchMaxTimestamp : Int := -1
  deriving DecidableEq

/-- `segment_index::maybe_track`. -/
def SegmentIndex.maybeTrack (x : SegmentIndex) (h : RecordBatchHeader)
    (filepos : Nat) : SegmentIndex :=
  let acc := x.acc + h.sizeBytes
  let state :=
    { x.state with
      batchTimestampsAreMonotonic := x.state.batchTimestampsAreMonotonic &&
        decide (x.lastBatchMaxTimestamp ≤ h.maxTimestamp) }
  let r := state.maybeIndex acc cfg.step filepos h (cfg.userData h)
  ⟨r.1, if r.2 then 0 else acc, max h.firstTimestamp h.maxTimestamp⟩

/-! ## Segments -/

/-- The size of batches in a file. -/
def fileSize (bs : List Batch) : Nat :=
  (bs.map fun b => b.header.sizeBytes).sum

structure Segment where
  term : Int
  baseOffset : Int
  batches : List Batch := []
  index : SegmentIndex
  deriving DecidableEq

namespace Segment

/-- A new segment. -/
def make (cfg : IndexConfig) (term baseOffset : Int) : Segment where
  term := term
  baseOffset := baseOffset
  index := { state := { baseOffset := baseOffset, withOffset := cfg.withOffset } }

/-- A batch is appended to a segment. -/
def append (cfg : IndexConfig) (s : Segment) (b : Batch) : Segment :=
  { s with
    batches := s.batches ++ [b]
    index := s.index.maybeTrack cfg b.header (fileSize s.batches) }

variable (s : Segment)

/-- The batches from a position in the file on. -/
def dataStream (pos : Nat) : List Batch → List Batch
  | [] => []
  | b :: bs => if pos = 0 then b :: bs else dataStream (pos - b.header.sizeBytes) bs

/-- `segment::offset_data_stream`. -/
def offsetDataStream (o : Int) : List Batch :=
  dataStream ((s.index.state.findNearestOffset o).elim 0 IndexEntry.filepos) s.batches

end Segment

/-! ## Queries -/

/-- `timequery_config`, for data batches. Other ranges make `bounded_offset_interval::checked`
    throw. -/
structure TimequeryConfig where
  minOffset : Int
  time : Int
  maxOffset : Int
  nonneg : 0 ≤ minOffset := by decide
  le : minOffset ≤ maxOffset := by decide

/-- `timequery_result`. -/
structure TimequeryResult where
  term : Int
  offset : Int
  time : Int
  deriving DecidableEq

namespace TimequeryConfig

variable (q : TimequeryConfig)

/-- `bounded_offset_interval::contains`. -/
def Contains (o : Int) : Prop :=
  q.minOffset ≤ o ∧ o ≤ q.maxOffset
  deriving Decidable

/-- The condition of `lock_manager::range_lock` on a segment. -/
def accepts (s : Segment) : Bool :=
  match s.batches.getLast? with
  | none => false
  | some b =>
    if s.index.state.nonDataTimestamps then false
    else if s.index.state.maxTimestamp < q.time then false
    else s.baseOffset ≤ q.maxOffset ∧ q.minOffset ≤ b.lastOffset

/-- The offset at which the reader starts. -/
def startOffset (s : Segment) : Int :=
  let entry :=
    if s.index.state.batchTimestampsAreMonotonic then s.index.state.findNearestTime q.time else none
  max q.minOffset (entry.elim s.baseOffset s.index.state.entryOffset)

/-- The first batch that the reader returns, from an offset on (`skipping_consumer`). -/
def readBatch (startOffset : Int) : List Batch → Option Batch
  | [] => none
  | b :: bs =>
    if q.maxOffset < b.baseOffset then none
    else if b.lastOffset < startOffset then readBatch startOffset bs
    else if b.header.type ≠ .raftData then readBatch (b.lastOffset + 1) bs
    else if b.header.maxTimestamp < q.time then readBatch (b.lastOffset + 1) bs
    else some b

/-- `batch_timequery`. -/
def batchTimequery (term : Int) (b : Batch) : TimequeryResult :=
  match b.records.find? fun r => q.time ≤ b.timestampOf r ∧ q.Contains (b.offsetOf r) with
  | some r => ⟨term, b.offsetOf r, b.timestampOf r⟩
  | none => ⟨term, b.baseOffset, b.header.firstTimestamp⟩

/-- `disk_log_impl::timequery` on the segments of a log. -/
def timequery (segments : List Segment) : Option TimequeryResult :=
  match segments.find? q.accepts with
  | none => none
  | some s =>
    let start := q.startOffset s
    -- the reader is done if it starts after the range
    let batch := if q.maxOffset < start then none else q.readBatch start (s.offsetDataStream start)
    match batch with
    | none => none
    | some b => if q.time ≤ b.header.maxTimestamp then some (q.batchTimequery s.term b) else none

end TimequeryConfig

/-! ## Logs -/

/-- What was appended to a segment. -/
structure SegmentData where
  term : Int
  baseOffset : Int
  batches : List Batch
  deriving DecidableEq

/-- The segment with its index. -/
def SegmentData.build (d : SegmentData) : Segment :=
  d.batches.foldl (Segment.append cfg) (Segment.make cfg d.term d.baseOffset)

/-- A log with its batches in the order of their offsets. There may be holes, but a segment begins
    at an offset that its index can represent. -/
structure Log where
  segments : List SegmentData
  wf : ∀ d ∈ segments, ∀ b ∈ d.batches, b.Wf
  sorted : (segments.flatMap SegmentData.batches).Pairwise fun b b' => b.lastOffset < b'.baseOffset
  base_le : ∀ d ∈ segments, ∀ b ∈ d.batches, d.baseOffset ≤ b.baseOffset
  head_le : ∀ d ∈ segments, ∀ b ∈ d.batches.head?, b.baseOffset - d.baseOffset ≤ 2 ^ 32 - 1

namespace Log

variable (log : Log) (cfg : IndexConfig) (q : TimequeryConfig)

/-- `disk_log_impl::timequery`. -/
def timequery : Option TimequeryResult :=
  q.timequery (log.segments.map (SegmentData.build cfg))

/-- The record of the batch is what the query looks for. -/
def Matches (b : Batch) (r : Record) : Prop :=
  b.header.type = .raftData ∧ q.Contains (b.offsetOf r) ∧ q.time ≤ b.timestampOf r
  deriving Decidable

/-- There is no record that the query looks for. -/
def NoMatch : Prop :=
  ∀ d ∈ log.segments, ∀ b ∈ d.batches, ∀ r ∈ b.records, ¬ Matches q b r
  deriving Decidable

/-- The answer is the first record that the query looks for. -/
def Answers : Option TimequeryResult → Prop
  | none => log.NoMatch q
  | some res =>
    ∃ d ∈ log.segments, ∃ b ∈ d.batches, ∃ r ∈ b.records,
      Matches q b r ∧ res = ⟨d.term, b.offsetOf r, b.timestampOf r⟩ ∧
        ∀ d' ∈ log.segments, ∀ b' ∈ d'.batches, ∀ r' ∈ b'.records, Matches q b' r' →
          b.offsetOf r ≤ b'.offsetOf r'

instance (res : Option TimequeryResult) : Decidable (log.Answers q res) :=
  match res with
  | none => inferInstanceAs (Decidable (log.NoMatch q))
  | some _ => inferInstanceAs (Decidable (∃ d ∈ log.segments, _))

end Log

end Redpanda.TimeQuery
