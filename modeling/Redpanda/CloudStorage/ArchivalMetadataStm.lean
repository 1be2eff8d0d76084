import Redpanda.CloudStorage.StartOffset

/-!
# Archival metadata commands

The manifest of a partition is replicated by `archival_metadata_stm`, which applies the commands
found in the log of the partition. A command that fails leaves the manifest as it is.

The objects that can be deleted from cloud storage are those of the replaced segments and of the
segments below the start offset (`getSegmentsToCleanup`); after they have been deleted, a
`cleanup_metadata` command forgets them.

Of the commands those are modelled that change the segments of the manifest, apart from the
replacement of the whole manifest.
-/

namespace Redpanda.CloudStorage

open Model Lib

/-- The commands of `archival_metadata_stm`. The segments added have their terms. -/
inductive ArchivalCommand
  | addSegment (m : SegmentMeta)
  | truncate (startOffset : Int)
  | updateStartOffset (startOffset : Int)
  | cleanupMetadata
  | spillover (m : SegmentMeta)
  deriving DecidableEq

namespace PartitionManifest

variable (p : PartitionManifest)

/-- The filter of `get_segments_to_cleanup` on the replaced segments: the segment of the manifest
    with the same base offset has another name. -/
def isUnused (lw : LwSegmentMeta) : Bool :=
  match p.find lw.baseOffset with
  | none => true
  | some (s, _) => generateRemoteSegmentName lw.toSegmentMeta ≠ generateRemoteSegmentName s

/-- `get_segments_to_cleanup`. -/
def getSegmentsToCleanup : List LwSegmentMeta :=
  p.replaced.filter p.isUnused ++
    (p.segments.takeWhile (·.committedOffset < p.getStartOffset.getD 0)).map .convert

/-- `apply_cleanup_metadata`. -/
def applyCleanupMetadata : PartitionManifest :=
  if p.getSegmentsToCleanup = [] then p else p.deleteReplacedSegments.truncate.2

/-- `apply_add_segment`, `apply_truncate`, `apply_update_start_offset`, `apply_cleanup_metadata`
    and `apply_spillover`. -/
def applyCommand : ArchivalCommand → PartitionManifest
  | .addSegment m => p.add m
  | .truncate o => ((p.truncateAt o).map Prod.snd).getD p
  | .updateStartOffset o => (p.advanceStartOffset o).getD p
  | .cleanupMetadata => p.applyCleanupMetadata
  | .spillover m => if p.safeSpilloverManifest m then (p.spillover m).getD p else p

end PartitionManifest

end Redpanda.CloudStorage
