import Redpanda.Container.IntervalSet
import Redpanda.Lib.Except
import Redpanda.Model.Fundamental

/-!
# The data of the level one metastore

What both implementations of the metastore (`simple_metastore` and the one on top of
an LSM tree) keep about partitions and objects, and what is requested of them. An
*object* holds data of many partitions; an *extent* is the part of an object with the
data of a range of offsets of one partition.

Hash maps are association lists here (`AList`): nothing depends on the order in which
their entries are visited. Sizes are natural numbers, which do not overflow. Ids
of topics and objects are the numbers of their uuids.
-/

namespace Redpanda.LevelOne

open Lib Model Container

abbrev TopicId := Nat

abbrev ObjectId := Nat

/-- A partition, with the 32 bits of its id: keys order partitions by these bits. -/
structure TopicIdPartition where
  topicId : TopicId
  partition : BitVec 32
  deriving DecidableEq

structure Extent where
  baseOffset : Int
  lastOffset : Int
  maxTimestamp : Int
  filepos : Nat
  len : Nat
  oid : ObjectId
  deriving DecidableEq

/-- The fields of an extent in the order in which extents are compared. -/
def Extent.fields (e : Extent) : Int ×ₗ Int ×ₗ Int ×ₗ Nat ×ₗ Nat ×ₗ Nat :=
  toLex (e.baseOffset, toLex (e.lastOffset, toLex (e.maxTimestamp,
    toLex (e.filepos, toLex (e.len, e.oid)))))

theorem Extent.fields_injective : Function.Injective Extent.fields := by
  rintro ⟨⟩ ⟨⟩ h
  simpa [Extent.fields] using h

instance : LinearOrder Extent :=
  LinearOrder.lift' Extent.fields Extent.fields_injective

/-- Offset that corresponds to the start of a given term. -/
structure TermStart where
  termId : Int
  startOffset : Int
  deriving DecidableEq

/-- Metadata about a given object that is not specific to any partition. -/
structure ObjectEntry where
  totalDataSize : Nat := 0
  removedDataSize : Nat := 0
  footerPos : Nat := 0
  objectSize : Nat := 0
  lastUpdated : Int
  isPreregistration : Bool := false
  deriving DecidableEq

abbrev ObjectEntries := AList fun _ : ObjectId => ObjectEntry

/-! ## Requested objects -/

/-- The extent of a new object for one partition (`new_object::metadata`). -/
structure ExtentMeta where
  baseOffset : Int
  lastOffset : Int
  maxTimestamp : Int
  filepos : Nat
  len : Nat
  deriving DecidableEq

structure NewObject where
  oid : ObjectId
  footerPos : Nat
  objectSize : Nat
  extentMetas : AList fun _ : TopicIdPartition => ExtentMeta

/-- The extents of a request for each partition, in order (`sorted_extents_by_tidp_t`). -/
abbrev SortedExtents := AList fun _ : TopicIdPartition => List Extent

/-- The extents of one partition. -/
abbrev SortedExtents.Entry := Sigma fun _ : TopicIdPartition => List Extent

def ExtentMeta.toExtent (m : ExtentMeta) (oid : ObjectId) : Extent :=
  ⟨m.baseOffset, m.lastOffset, m.maxTimestamp, m.filepos, m.len, oid⟩

/-- Adding an extent to those of its partition. -/
def insertExtent (ret : SortedExtents) (tidp : TopicIdPartition) (e : Extent) : SortedExtents :=
  ret.insert tidp (((ret.lookup tidp).getD []).orderedInsert (· ≤ ·) e)

/-- `new_object::collect_extents_by_tidp`. -/
def NewObject.collectExtentsByTidp (o : NewObject) (ret : SortedExtents) : SortedExtents :=
  o.extentMetas.entries.foldl (fun ret m => insertExtent ret m.1 (m.2.toExtent o.oid)) ret

/-- What `new_object::collect_extents_by_tidp` returns. -/
def NewObject.dataSize (o : NewObject) : Nat :=
  (o.extentMetas.entries.map (·.2.len)).sum

/-- The extents of all requested objects. -/
def collectExtents (objects : List NewObject) : SortedExtents :=
  objects.foldl (fun ret o => o.collectExtentsByTidp ret) ∅

/-! ## Contiguous intervals -/

/-- `offset_interval_set::interval`: a range of offsets, both ends included. -/
structure Interval where
  baseOffset : Int
  lastOffset : Int
  deriving DecidableEq

/-- Extents of a partition that overlap or are out of order. -/
structure BrokenOrder where
  tidp : TopicIdPartition
  previous : Int
  next : Int
  deriving DecidableEq

/-- The intervals of the extents after the current interval, which is extended as long
    as the next extent is contiguous with it. -/
def intervalsAfter (tidp : TopicIdPartition) (currentBase currentLast : Int) :
    List Extent → Except BrokenOrder (List Interval)
  | [] => .ok [⟨currentBase, currentLast⟩]
  | e :: extents =>
    let expectedNext := nextOffset currentLast
    if e.baseOffset = expectedNext then
      intervalsAfter tidp currentBase e.lastOffset extents
    else if expectedNext < e.baseOffset then do
      let intervals ← intervalsAfter tidp e.baseOffset e.lastOffset extents
      .ok (⟨currentBase, currentLast⟩ :: intervals)
    else .error ⟨tidp, currentLast, e.baseOffset⟩

/-- The intervals of the extents of a partition. -/
def contiguousIntervals (tidp : TopicIdPartition) : List Extent → Except BrokenOrder (List Interval)
  | [] => .ok []
  | e :: extents => intervalsAfter tidp e.baseOffset e.lastOffset extents

/-! ## Compaction -/

/-- `offset_interval_set`: an interval set with ranges that include both of their ends. -/
abbrev OffsetIntervalSet := IntervalSet

namespace OffsetIntervalSet

variable (s : OffsetIntervalSet)

/-- `offset_interval_set::insert`. -/
def insertRange (base last : Int) : OffsetIntervalSet × Bool :=
  s.insert base (last - base + 1)

/-- The ranges in order, as read by `make_stream`. -/
def toVec : List Interval :=
  s.intervals.map fun i => ⟨i.1, i.2 - 1⟩

/-- Erasing the first intervals as long as they end below an offset. -/
def eraseBelow (newStartOffset : Int) : OffsetIntervalSet :=
  ⟨s.intervals.dropWhile (·.2 - 1 < newStartOffset),
    ⟨fun i hi => s.separated.nonempty i ((List.dropWhile_sublist _).subset hi),
      s.separated.gaps.sublist (List.dropWhile_sublist _)⟩⟩

/-- `offset_interval_set::truncate_with_new_start_offset`. -/
def truncateWithNewStartOffset (newStartOffset : Int) : OffsetIntervalSet :=
  let s := eraseBelow s newStartOffset
  match s.intervals with
  | [] => s
  | (start, stop) :: _ =>
    if newStartOffset ≤ start then s
    else (insertRange s.eraseFirst newStartOffset (stop - 1)).1

end OffsetIntervalSet

/-- `compaction_state::cleaned_range_with_tombstones`. -/
structure TombstoneRange where
  baseOffset : Int
  lastOffset : Int
  cleanedWithTombstonesAt : Int
  deriving DecidableEq

/-- The fields of a range in the order in which ranges are compared. -/
def TombstoneRange.fields (r : TombstoneRange) : Int ×ₗ Int ×ₗ Int :=
  toLex (r.baseOffset, toLex (r.lastOffset, r.cleanedWithTombstonesAt))

theorem TombstoneRange.fields_injective : Function.Injective TombstoneRange.fields := by
  rintro ⟨⟩ ⟨⟩ h
  simpa [TombstoneRange.fields] using h

instance : LinearOrder TombstoneRange :=
  LinearOrder.lift' TombstoneRange.fields TombstoneRange.fields_injective

/-- Inserting into an `absl::btree_set`. -/
def btreeInsert {α : Type*} [LinearOrder α] (l : List α) (a : α) : List α :=
  if a ∈ l then l else l.orderedInsert (· ≤ ·) a

structure CompactionState where
  cleanedRanges : OffsetIntervalSet
  cleanedRangesWithTombstones : List TombstoneRange

namespace CompactionState

variable (c : CompactionState)

def empty : CompactionState := ⟨.empty, []⟩

/-- `compaction_state::may_add`: the range overlaps neither with the first range at or
    above it nor with the one before that. -/
def mayAdd (newRange : TombstoneRange) : Bool :=
  let below := c.cleanedRangesWithTombstones.filter (· < newRange)
  let atOrAbove := c.cleanedRangesWithTombstones.filter (newRange ≤ ·)
  ¬ atOrAbove.head?.any (·.baseOffset ≤ newRange.lastOffset) ∧
    ¬ below.getLast?.any (newRange.baseOffset ≤ ·.lastOffset)

/-- `compaction_state::add`, which also tells if the range was added. -/
def add (newRange : TombstoneRange) : CompactionState × Bool :=
  if c.mayAdd newRange then
    ({ c with
        cleanedRangesWithTombstones := btreeInsert c.cleanedRangesWithTombstones newRange }, true)
  else (c, false)

/-- The ranges that follow a range without a gap, up to the first that reaches `last`. -/
def contiguousAfter (last contiguousNext currentLast : Int) :
    List TombstoneRange → Option (List TombstoneRange)
  | [] => none
  | r :: ranges =>
    if r.baseOffset ≠ contiguousNext then none
    else if last ≤ max r.lastOffset currentLast then some [r]
    else (contiguousAfter last (nextOffset r.lastOffset) (max r.lastOffset currentLast) ranges).map
      (r :: ·)

variable (base last : Int)

/-- `compaction_state::get_contiguous_range_with_tombstones`: the ranges that cover the
    offsets from `base` to `last`. -/
def getContiguousRangeWithTombstones : Option (List TombstoneRange) :=
  let ranges := c.cleanedRangesWithTombstones
  (ranges.filter (·.baseOffset < nextOffset base)).getLast?.bind fun r =>
    if last ≤ r.lastOffset then some [r]
    else (contiguousAfter last (nextOffset r.lastOffset) r.lastOffset
      (ranges.filter (nextOffset base ≤ ·.baseOffset))).map (r :: ·)

/-- `compaction_state::has_contiguous_range_with_tombstones`. -/
def hasContiguousRangeWithTombstones : Bool :=
  (c.getContiguousRangeWithTombstones base last).isSome

/-- `compaction_state::erase_contiguous_range_with_tombstones`, which also tells if the
    range was erased. What the first and the last of the ranges covering it have
    outside of it is kept. -/
def eraseContiguousRangeWithTombstones : CompactionState × Bool :=
  match c.getContiguousRangeWithTombstones base last with
  | none => (c, false)
  | some covering =>
    let ranges := c.cleanedRangesWithTombstones.filter (· ∉ covering)
    let ranges := match covering.head? with
      | some r => if r.baseOffset ≠ base then
          btreeInsert ranges { r with lastOffset := prevOffset base } else ranges
      | none => ranges
    let ranges := match covering.getLast? with
      | some r => if r.lastOffset ≠ last then
          btreeInsert ranges { r with baseOffset := nextOffset last } else ranges
      | none => ranges
    ({ c with cleanedRangesWithTombstones := ranges }, true)

/-- `compaction_state::truncate_with_new_start_offset`. -/
def truncateWithNewStartOffset (newStartOffset : Int) : CompactionState where
  cleanedRanges := OffsetIntervalSet.truncateWithNewStartOffset c.cleanedRanges newStartOffset
  cleanedRangesWithTombstones :=
    match c.cleanedRangesWithTombstones.dropWhile (·.lastOffset < newStartOffset) with
    | [] => []
    | r :: ranges =>
      if newStartOffset ≤ r.baseOffset then r :: ranges
      else btreeInsert ranges { r with baseOffset := newStartOffset }

end CompactionState

/-- `compaction_state_update::cleaned_range`. -/
structure CleanedRange where
  baseOffset : Int
  lastOffset : Int
  hasTombstones : Bool := false
  deriving DecidableEq

def CleanedRange.withTombstones (r : CleanedRange) (cleanedAt : Int) : TombstoneRange :=
  ⟨r.baseOffset, r.lastOffset, cleanedAt⟩

structure CompactionStateUpdate where
  newCleanedRanges : List CleanedRange
  removedTombstonesRanges : OffsetIntervalSet
  cleanedAt : Int
  expectedCompactionEpoch : Int

/-! ## Checks of requests

Both implementations refuse the same requests, for the same reasons. -/

/-- Why an update is refused, with what the message of the error tells. -/
inductive UpdateError
  | noObjects
  | noTerms
  | missingTerms (tidp : TopicIdPartition)
  | invertedExtent (tidp : TopicIdPartition) (base last : Int)
  | unexpectedBase (tidp : TopicIdPartition) (expectedNext actual : Int)
  | emptyTerms (tidp : TopicIdPartition)
  | termsWithoutExtents (tidp : TopicIdPartition)
  | startMismatch (tidp : TopicIdPartition) (extentsStart termsStart : Int)
  | extentsEndBelowTerm (tidp : TopicIdPartition) (extentsLast termsLastStart : Int)
  | invalidTerm (tidp : TopicIdPartition) (entry maxSoFar : TermStart)
  | brokenOrder (order : BrokenOrder)
  | cleanedWithoutExtents (tidp : TopicIdPartition)
  | cleanedAboveExtents (tidp : TopicIdPartition) (cleanLast reqLast : Int)
  | cleanedBelowExtents (tidp : TopicIdPartition) (reqBase cleanBase : Int)
  | notPreregistered (oid : ObjectId)
  | termBelowLast (tidp : TopicIdPartition) (term last : Int)
  | termStartBelowLast (tidp : TopicIdPartition) (start last : Int)
  | notTracked (tidp : TopicIdPartition)
  | notFound (tidp : TopicIdPartition)
  | noExactExtents (tidp : TopicIdPartition) (base last : Int)
  | epochMismatch (tidp : TopicIdPartition) (expected actual : Int)
  | tombstonesOverlap (tidp : TopicIdPartition) (base last : Int)
  | tombstonesNotTracked (tidp : TopicIdPartition) (base last : Int)
  | cleanedAboveStart (tidp : TopicIdPartition) (reqBase start : Int)
  | allFilteredOut
  | startAboveNext (tidp : TopicIdPartition) (newStart next : Int)
  | alreadyExists (oid : ObjectId)
  | corruption
  | unexpectedPreregistered (oid : ObjectId)
  | stillReferenced (oid : ObjectId) (removed total : Nat)
  /-- An assertion fails and the broker stops. -/
  | assertionFailed
  /-- The code loops forever, or reads what is not there. -/
  | noReturn
  deriving DecidableEq

/-- The extents of a partition have to be contiguous. -/
def checkExtents (tidp : TopicIdPartition) : Int → List Extent → Except UpdateError Unit
  | _, [] => .ok ()
  | expectedNext, e :: extents =>
    if e.lastOffset < e.baseOffset then .error (.invertedExtent tidp e.baseOffset e.lastOffset)
    else if e.baseOffset ≠ expectedNext then
      .error (.unexpectedBase tidp expectedNext e.baseOffset)
    else checkExtents tidp (nextOffset e.lastOffset) extents

/-- The terms and their start offsets have to be increasing. -/
def checkTerms (tidp : TopicIdPartition) : TermStart → List TermStart → Except UpdateError Unit
  | _, [] => .ok ()
  | maxSoFar, entry :: terms =>
    if entry.termId ≤ maxSoFar.termId ∨ entry.startOffset ≤ maxSoFar.startOffset then
      .error (.invalidTerm tidp entry maxSoFar)
    else checkTerms tidp entry terms

/-- No extent of a request ends before it begins. -/
def checkNotInverted (tidp : TopicIdPartition) (extents : List Extent) : Except UpdateError Unit :=
  extents.forM fun e =>
    if e.lastOffset < e.baseOffset then .error (.invertedExtent tidp e.baseOffset e.lastOffset)
    else .ok ()

/-- `contiguous_intervals_for_extents`: the intervals of the extents of each partition. -/
def contiguousIntervalsForExtents (extents : SortedExtents) :
    Except UpdateError (AList fun _ : TopicIdPartition => List Interval) :=
  updateEach (fun tidp extents _ =>
    (contiguousIntervals tidp extents).mapError .brokenOrder) extents.entries ∅

end Redpanda.LevelOne
