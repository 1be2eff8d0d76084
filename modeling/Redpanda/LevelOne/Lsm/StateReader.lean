import Redpanda.LevelOne.Lsm.Rows

/-!
# Reading the rows of the LSM metastore

The functions of `state_reader` that the updates of the metastore use, on a snapshot
of the store. They move an iterator over all rows, of any type and partition, and so
have to check where it ends up (`isAtExtent`). Reads of the store itself do not fail
here.
-/

namespace Redpanda.LevelOne.Lsm

open Lib Model

/-- The extent an iterator stands at, if it belongs to the partition. -/
def isAtExtent (tidp : TopicIdPartition) : Option Row → Option Extent
  | some (.extent t e) => if t = tidp then some e else none
  | _ => none

/-- The term start an iterator stands at, if it belongs to the partition. -/
def isAtTerm (tidp : TopicIdPartition) : Option Row → Option TermStart
  | some (.term t v) => if t = tidp then some v else none
  | _ => none

namespace Store

variable (s : Store) (tidp : TopicIdPartition)

def getMetadata : Option MetadataRowValue :=
  match s.get (.metadata tidp) with
  | some (.metadata _ v) => some v
  | _ => none

def getCompactionMetadata : Option CompactionState :=
  match s.get (.compaction tidp) with
  | some (.compaction _ v) => some v
  | _ => none

def getObject (oid : ObjectId) : Option ObjectEntry :=
  match s.get (.object oid) with
  | some (.object _ v) => some v
  | _ => none

/-- The last term start of a partition, found from the terms of the next partition. -/
def getMaxTerm : Option TermStart :=
  isAtTerm tidp (s.seekBefore (.term (nextPartition tidp) 0))

/-- The position from which to look for an offset: the extent that may contain it, or
    else the first row after. -/
def seekAround (o : Int) : Option Row :=
  let k := Key.extent tidp (nextOffset o)
  match s.seek k with
  | some r =>
    let iter := s.prev r.key
    if (isAtExtent tidp iter).isSome then iter else s.seek k
  | none => s.seekToLast

/-- The first extent that contains the offset or comes after it. -/
def getExtentGe (o : Int) : Option Extent :=
  (isAtExtent tidp (s.seekAround tidp o)).filter (o ≤ ·.lastOffset)

/-- The keys of the first and the last of the extents that span exactly the offsets
    from `base` to `last`. -/
def getExtentRange (base last : Int) : Option (Key × Key) := do
  let first ← isAtExtent tidp (s.seek (.extent tidp base))
  guard (first.baseOffset = base)
  let final ← isAtExtent tidp (s.seekBefore (.extent tidp (nextOffset last)))
  guard (final.lastOffset = last)
  return (.extent tidp first.baseOffset, .extent tidp final.baseOffset)

/-- The first extent that reaches the offset, or the first one at all. -/
def findFirstExtent : Option Int → Option Extent
  | some minOffset => do
    let e ← isAtExtent tidp (s.seekAround tidp minOffset)
    if e.lastOffset < minOffset then isAtExtent tidp (s.next (.extent tidp e.baseOffset))
    else some e
  | none => isAtExtent tidp (s.seek (.extent tidp 0))

/-- The last extent that begins at or below the offset, or the last one at all, which
    is found from the extents of the next partition. -/
def findLastExtent : Option Int → Option Extent
  | some maxOffset => isAtExtent tidp (s.seekBefore (.extent tidp (nextOffset maxOffset)))
  | none => isAtExtent tidp (s.seekBefore (.extent (nextPartition tidp) 0))

/-- `find_inclusive_extent_keys`: the keys of the first and the last extent that overlap
    with the offsets from `minOffset` to `maxOffset`. -/
def getInclusiveExtents (minOffset maxOffset : Option Int) : Option (Key × Key) := do
  let first ← s.findFirstExtent tidp minOffset
  let final ← s.findLastExtent tidp maxOffset
  guard (Key.extent tidp first.baseOffset ≤ .extent tidp final.baseOffset)
  return (.extent tidp first.baseOffset, .extent tidp final.baseOffset)

/-- The keys of the term starts of a partition, in order, up to the first that starts
    above `upperBound`. -/
def getTermKeys (upperBound : Option Int) : List Key :=
  ((s.rowsFrom (.term tidp 0)).takeWhile fun r =>
    (isAtTerm tidp (some r)).any fun v => upperBound.all (v.startOffset ≤ ·)).map Row.key

/-- The partition of a metadata row of the topic. -/
def isAtMetadata (tid : TopicId) : Row → Option (BitVec 32)
  | .metadata t _ => if t.topicId = tid then some t.partition else none
  | _ => none

/-- The partitions of a topic that have a metadata row. -/
def getPartitionsForTopic (tid : TopicId) : List (BitVec 32) :=
  ((s.rowsFrom (.metadata ⟨tid, 0⟩)).takeWhile fun r => (isAtMetadata tid r).isSome).filterMap
    (isAtMetadata tid)

end Store

/-! ## Iterating over extents -/

/-- The rows an iteration gives, and whether it then fails as the store is corrupt. -/
structure ExtentRows where
  rows : List (Key × Extent)
  corruption : Bool

/-- Reading extents up to the one with the key `last`. -/
def readExtents (last : Key) : List Row → ExtentRows
  | [] => ⟨[], false⟩
  | r :: rest =>
    if last < r.key then ⟨[], true⟩
    else match r with
      | .extent t e =>
        let row := (Key.extent t e.baseOffset, e)
        if r.key = last then ⟨[row], false⟩
        else
          let result := readExtents last rest
          { result with rows := row :: result.rows }
      | _ => ⟨[], true⟩

/-- `extent_key_range::get_rows`, forward. -/
def Store.getRows (s : Store) (range : Key × Key) : ExtentRows :=
  match s.rowsFrom range.1 with
  | [] => ⟨[], true⟩
  | r :: rest => if r.key = range.1 then readExtents range.2 (r :: rest) else ⟨[], true⟩

/-! ## The extents of a partition -/

/-- The extents of a partition, in the order of their keys. -/
def Store.extents (s : Store) (tidp : TopicIdPartition) : List Extent :=
  s.rows.filterMap fun r => isAtExtent tidp (some r)

end Redpanda.LevelOne.Lsm
