import Redpanda.Model.Fundamental
import Redpanda.Lib.Covering

/-!
# The manifest of a partition in cloud storage

The segments of a partition that have been uploaded are listed in its manifest, in the order of
their base offsets (`partition_manifest`). A segment is added at the end of the log, or as the
re-upload of one or several segments of the manifest, which it replaces. The objects of the
replaced segments are remembered until they are deleted, and so are the segments below the start
offset of the log. When the manifest gets too long, its first segments are moved to a spillover
manifest.

The column store of the segments is here the list of the segments. All the functions below read
it through its iterators, which flush its write buffer, so that at most one segment at a time
is inserted: it takes the place of those it covers (`insertCovering`). An iterator is the list of
the segments from it on.

Not modelled are the fields of the metadata that no function below reads (the timestamps, the
revision, the archiver's term), the offsets kept for compaction, the archive's own offsets and the
override of the Kafka start offset.
-/

namespace Redpanda.CloudStorage

open Model Lib List

/-- `segment_name_format`. -/
inductive SegmentNameFormat
  | v1
  | v2
  | v3
  deriving DecidableEq

/-- `offset_delta{}`, an offset delta that is not set. -/
def OffsetDelta.unset : Int := Offset.min

/-- `segment_meta`. -/
structure SegmentMeta where
  sizeBytes : Nat
  baseOffset : Int
  committedOffset : Int
  deltaOffset : Int := OffsetDelta.unset
  deltaOffsetEnd : Int := OffsetDelta.unset
  segmentTerm : Int
  snameFormat : SegmentNameFormat := .v1
  deriving DecidableEq

/-- All the offsets of the second segment are offsets of the first. -/
abbrev SegmentMeta.covers (m s : SegmentMeta) : Bool :=
  m.baseOffset ≤ s.baseOffset ∧ s.committedOffset ≤ m.committedOffset

/-- `lw_segment_meta`, what is kept of a replaced segment. -/
structure LwSegmentMeta where
  baseOffset : Int
  committedOffset : Int
  segmentTerm : Int
  sizeBytes : Nat
  snameFormat : SegmentNameFormat
  deriving DecidableEq

namespace LwSegmentMeta

/-- `lw_segment_meta::convert`, from the metadata of a segment. -/
def convert (m : SegmentMeta) : LwSegmentMeta where
  baseOffset := m.baseOffset
  committedOffset := m.committedOffset
  segmentTerm := m.segmentTerm
  sizeBytes := if m.snameFormat = .v1 then 0 else m.sizeBytes
  snameFormat := m.snameFormat

/-- `lw_segment_meta::convert`, back to the metadata of a segment. -/
def toSegmentMeta (lw : LwSegmentMeta) : SegmentMeta where
  sizeBytes := lw.sizeBytes
  baseOffset := lw.baseOffset
  committedOffset := lw.committedOffset
  segmentTerm := lw.segmentTerm
  -- the format was not always recorded: a segment with a size has a name with it
  snameFormat :=
    if lw.snameFormat ≠ .v1 then lw.snameFormat else if lw.sizeBytes ≠ 0 then .v2 else .v1

end LwSegmentMeta

/-! ## Names of segments -/

/-- The characters of a segment's name. -/
abbrev SegmentName := List Char

/-- An integer in decimal. -/
def formatInt : Int → List Char
  | .ofNat n => Nat.toDigits 10 n
  | .negSucc n => '-' :: Nat.toDigits 10 (n + 1)

/-- `generate_remote_segment_name`. -/
def generateRemoteSegmentName (m : SegmentMeta) : SegmentName :=
  match m.snameFormat with
  | .v1 => formatInt m.baseOffset ++ '-' :: (formatInt m.segmentTerm ++ "-v1.log".toList)
  | .v2 | .v3 =>
    formatInt m.baseOffset ++ '-' :: (formatInt m.committedOffset ++ '-' ::
      (formatInt m.sizeBytes ++ '-' :: (formatInt m.segmentTerm ++ "-v1.log".toList)))

theorem not_mem_toDigits (n : Nat) : '-' ∉ Nat.toDigits 10 n := by
  intro h
  exact absurd (Nat.isDigit_of_mem_toDigits (by decide) (by decide) h) (by decide)

theorem toDigits_injective : Function.Injective (Nat.toDigits 10) := fun n n' h => by
  rw [← Nat.ofDigitChars_ten_toDigits (n := n), h, Nat.ofDigitChars_ten_toDigits]

/-- What is before the first hyphen of a text. -/
theorem takeWhile_hyphen {ds : List Char} (h : '-' ∉ ds) (r : List Char) :
    (ds ++ '-' :: r).takeWhile (· ≠ '-') = ds := by
  rw [takeWhile_append_of_pos]
  · simp
  · intro c hc
    simpa using ne_of_mem_of_not_mem hc h

theorem eq_of_append_hyphen {ds ds' r r' : List Char} (h : '-' ∉ ds) (h' : '-' ∉ ds')
    (heq : ds ++ '-' :: r = ds' ++ '-' :: r') : ds = ds' := by
  rw [← takeWhile_hyphen h r, heq, takeWhile_hyphen h']

/-- An integer can be read off the beginning of a text if a hyphen follows it. -/
theorem eq_of_formatInt_append {z z' : Int} {r r' : List Char}
    (h : formatInt z ++ '-' :: r = formatInt z' ++ '-' :: r') : z = z' := by
  have hne : ∀ (n k : Nat) (r r' : List Char),
      Nat.toDigits 10 n ++ r ≠ '-' :: (Nat.toDigits 10 k ++ r') := fun n k r r' heq => by
    obtain ⟨c, ds, hds⟩ := exists_cons_of_ne_nil (Nat.toDigits_ne_nil (n := n) (b := 10))
    rw [hds, cons_append] at heq
    exact not_mem_toDigits n (by simp [hds, head_eq_of_cons_eq heq])
  rcases z with n | n <;> rcases z' with k | k
  · exact congrArg Int.ofNat (toDigits_injective
      (eq_of_append_hyphen (not_mem_toDigits n) (not_mem_toDigits k) h))
  · exact absurd h (hne n (k + 1) _ _)
  · exact absurd h.symm (hne k (n + 1) _ _)
  · have := toDigits_injective (eq_of_append_hyphen (not_mem_toDigits _) (not_mem_toDigits _)
      (tail_eq_of_cons_eq h))
    exact congrArg Int.negSucc (by omega)

/-- Segments with the same name have the same base offset, whatever the formats. -/
theorem baseOffset_eq_of_name_eq {m m' : SegmentMeta}
    (h : generateRemoteSegmentName m = generateRemoteSegmentName m') :
    m.baseOffset = m'.baseOffset := by
  have hname : ∀ m : SegmentMeta,
      ∃ r, generateRemoteSegmentName m = formatInt m.baseOffset ++ '-' :: r := fun m => by
    rw [generateRemoteSegmentName]
    split <;> exact ⟨_, rfl⟩
  obtain ⟨r, hr⟩ := hname m
  obtain ⟨r', hr'⟩ := hname m'
  exact eq_of_formatInt_append (hr ▸ hr' ▸ h)

/-- The name of a segment is kept for a replaced one. -/
theorem generateRemoteSegmentName_convert (m : SegmentMeta) :
    generateRemoteSegmentName (LwSegmentMeta.convert m).toSegmentMeta =
      generateRemoteSegmentName m := by
  obtain ⟨size, base, committed, delta, deltaEnd, term, format⟩ := m
  cases format <;> rfl

/-! ## Anomalies -/

/-- `anomaly_type`, of the anomalies in the metadata of segments. -/
inductive AnomalyType
  | missingDelta
  | nonMonotonicalDelta
  | endDeltaSmaller
  | committedSmaller
  | offsetGap
  | offsetOverlap
  deriving DecidableEq

/-- `scrub_segment_meta`, the types of the anomalies found. -/
def scrubSegmentMeta (current : SegmentMeta) (previous : Option SegmentMeta) : List AnomalyType :=
  (if previous.any fun prev => prev.deltaOffset ≠ OffsetDelta.unset ∧
      current.deltaOffset = OffsetDelta.unset then [.missingDelta] else []) ++
  (if previous.any fun prev => prev.deltaOffset ≠ OffsetDelta.unset ∧
      current.deltaOffset ≠ OffsetDelta.unset ∧ prev.deltaOffset > current.deltaOffset
    then [.nonMonotonicalDelta] else []) ++
  (if current.committedOffset < current.baseOffset then [.committedSmaller] else []) ++
  (if current.deltaOffset ≠ OffsetDelta.unset ∧ current.deltaOffsetEnd ≠ OffsetDelta.unset ∧
      current.deltaOffsetEnd < current.deltaOffset then [.endDeltaSmaller] else []) ++
  (if previous.any fun prev => nextOffset prev.committedOffset < current.baseOffset
    then [.offsetGap] else []) ++
  (if previous.any fun prev => nextOffset prev.committedOffset > current.baseOffset
    then [.offsetOverlap] else [])

/-- A segment without anomalies holds an offset and begins after the previous one. -/
theorem of_scrubSegmentMeta_eq_nil {m : SegmentMeta} {previous : Option SegmentMeta}
    (h : scrubSegmentMeta m previous = []) :
    m.baseOffset ≤ m.committedOffset ∧
      ∀ prev ∈ previous, m.baseOffset = nextOffset prev.committedOffset := by
  simp only [scrubSegmentMeta, append_eq_nil_iff, ite_eq_right_iff, cons_ne_nil, imp_false] at h
  obtain ⟨⟨⟨⟨-, hcommitted⟩, -⟩, hgap⟩, hoverlap⟩ := h
  refine ⟨not_lt.1 hcommitted, ?_⟩
  rintro prev rfl
  simp only [Option.any_some, decide_eq_true_eq] at hgap hoverlap
  omega

/-! ## The manifest -/

/-- `partition_manifest`. -/
structure PartitionManifest where
  segments : List SegmentMeta := []
  /-- `offset{}` if there are no segments. -/
  startOffset : Int := Offset.min
  lastOffset : Int := 0
  replaced : List LwSegmentMeta := []
  cloudLogSizeBytes : Nat := 0
  archiveSizeBytes : Nat := 0
  spilloverManifests : List SegmentMeta := []
  deriving DecidableEq

namespace PartitionManifest

variable (p : PartitionManifest) (m : SegmentMeta)

/-- `get_start_offset`. -/
def getStartOffset : Option Int :=
  if p.startOffset = Offset.min then none else some p.startOffset

/-- `cloud_log_size`. -/
def cloudLogSize : Nat := p.cloudLogSizeBytes + p.archiveSizeBytes

/-- `stm_region_size_bytes`. -/
def stmRegionSizeBytes : Nat := p.cloudLogSizeBytes

/-- `subtract_from_cloud_log_size`, which stops at zero. -/
def subtractFromCloudLogSize (toSubtract : Nat) : PartitionManifest :=
  { p with cloudLogSizeBytes := p.cloudLogSizeBytes - toSubtract }

variable (o : Int)

/-- `find`: the segment with a base offset, and those after it. -/
def find : Option (SegmentMeta × List SegmentMeta) :=
  match p.segments.dropWhile (·.baseOffset < o) with
  | s :: rest => if s.baseOffset = o then some (s, rest) else none
  | [] => none

/-- The segment before the position of a base offset. -/
def prev : Option SegmentMeta :=
  (p.segments.takeWhile (·.baseOffset < o)).getLast?

/-! ### Adding segments -/

/-- The loop of `move_aligned_offset_range`: the replaced segments with those found added, and
    their total size, or `none` if one of them is the segment that is added. -/
def moveAligned (m : SegmentMeta) :
    List SegmentMeta → List LwSegmentMeta → Nat → List LwSegmentMeta × Option Nat
  | [], replaced, total => (replaced, some total)
  | s :: rest, replaced, total =>
    if m.baseOffset ≤ s.baseOffset ∧ s.committedOffset ≤ m.committedOffset then
      if generateRemoteSegmentName s = generateRemoteSegmentName m then (replaced, none)
      else moveAligned m rest (replaced ++ [.convert s]) (total + s.sizeBytes)
    else (replaced, some total)

/-- `move_aligned_offset_range`. -/
def moveAlignedOffsetRange : List LwSegmentMeta × Option Nat :=
  moveAligned m (p.segments.dropWhile (·.baseOffset < m.baseOffset)) p.replaced 0

/-- The first lines of `add`: the log of an empty manifest begins with its first segment. -/
def startAt : PartitionManifest :=
  if p.startOffset = Offset.min ∧ p.segments = [] then { p with startOffset := o } else p

/-- `add`. A segment that is already in the manifest is not added again. -/
def add : PartitionManifest :=
  match p.moveAlignedOffsetRange m with
  | (replaced, none) => { p.startAt m.baseOffset with replaced := replaced }
  | (replaced, some total) =>
    { p.startAt m.baseOffset with
      segments := insertCovering SegmentMeta.baseOffset SegmentMeta.committedOffset m p.segments
      lastOffset := max m.committedOffset p.lastOffset
      replaced := replaced
      cloudLogSizeBytes := p.cloudLogSizeBytes - total + m.sizeBytes }

/-- `add` finds the segment among those it would replace. -/
def Refuses : Prop :=
  ∃ s ∈ covered SegmentMeta.baseOffset SegmentMeta.committedOffset m p.segments,
    generateRemoteSegmentName s = generateRemoteSegmentName m
  deriving Decidable

section Add

variable {p : PartitionManifest} {m : SegmentMeta} {l : List SegmentMeta}

theorem moveAligned_of_forall
    (h : ∀ s ∈ l.takeWhile m.covers, generateRemoteSegmentName s ≠ generateRemoteSegmentName m)
    (replaced : List LwSegmentMeta) (total : Nat) :
    moveAligned m l replaced total =
      (replaced ++ (l.takeWhile m.covers).map .convert,
        some (total + ((l.takeWhile m.covers).map SegmentMeta.sizeBytes).sum)) := by
  induction l generalizing replaced total with
  | nil => simp [moveAligned]
  | cons s l ih =>
    rw [moveAligned]
    by_cases hs : m.baseOffset ≤ s.baseOffset ∧ s.committedOffset ≤ m.committedOffset
    · rw [takeWhile_cons_of_pos (by simpa using hs)] at h ⊢
      rw [forall_mem_cons] at h
      rw [if_pos hs, if_neg h.1, ih h.2]
      simp [Nat.add_assoc]
    · rw [takeWhile_cons_of_neg (by simpa using hs), if_neg hs]
      simp

theorem moveAligned_of_exists
    (h : ∃ s ∈ l.takeWhile m.covers, generateRemoteSegmentName s = generateRemoteSegmentName m)
    (replaced : List LwSegmentMeta) (total : Nat) :
    ∃ moved : List SegmentMeta,
      moveAligned m l replaced total = (replaced ++ moved.map .convert, none) := by
  induction l generalizing replaced total with
  | nil => simp at h
  | cons s l ih =>
    rw [moveAligned]
    by_cases hs : m.baseOffset ≤ s.baseOffset ∧ s.committedOffset ≤ m.committedOffset
    · rw [takeWhile_cons_of_pos (by simpa using hs)] at h
      rw [if_pos hs]
      by_cases hname : generateRemoteSegmentName s = generateRemoteSegmentName m
      · exact ⟨[], by simp [hname]⟩
      · obtain ⟨t, ht, htname⟩ := h
        have ht := (mem_cons.1 ht).resolve_left (fun heq => hname (heq ▸ htname))
        obtain ⟨moved, heq⟩ :=
          ih ⟨t, ht, htname⟩ (replaced ++ [.convert s]) (total + s.sizeBytes)
        refine ⟨s :: moved, ?_⟩
        rw [if_neg hname, heq, map_cons, append_assoc, singleton_append]
    · rw [takeWhile_cons_of_neg (by simpa using hs)] at h
      simp at h

/-- `add` puts the segment in the place of those it covers. -/
theorem add_of_not_refuses (h : ¬ p.Refuses m) :
    p.add m = { p.startAt m.baseOffset with
      segments := insertCovering SegmentMeta.baseOffset SegmentMeta.committedOffset m p.segments
      lastOffset := max m.committedOffset p.lastOffset
      replaced := p.replaced ++
        (covered SegmentMeta.baseOffset SegmentMeta.committedOffset m p.segments).map .convert
      cloudLogSizeBytes := p.cloudLogSizeBytes -
        ((covered SegmentMeta.baseOffset SegmentMeta.committedOffset m p.segments).map
          SegmentMeta.sizeBytes).sum + m.sizeBytes } := by
  have hname := fun s hs heq => h ⟨s, hs, heq⟩
  rw [add, moveAlignedOffsetRange, moveAligned_of_forall hname, Nat.zero_add]
  rfl

/-- `add` only adds to the replaced segments if the segment is already there. -/
theorem add_of_refuses (h : p.Refuses m) :
    ∃ moved : List SegmentMeta,
      p.add m = { p with replaced := p.replaced ++ moved.map .convert } := by
  obtain ⟨moved, heq⟩ := moveAligned_of_exists h p.replaced 0
  refine ⟨moved, ?_⟩
  obtain ⟨s, hs, -⟩ := h
  have hne : p.segments ≠ [] := ne_nil_of_mem (mem_of_mem_covered hs)
  rw [add, moveAlignedOffsetRange, heq]
  simp [startAt, hne]

end Add

/-- `manifest_substitute`, what the end of the log is after the segments seen so far. -/
structure ManifestSubstitute where
  lastOffset : Int
  lastSegment : Option SegmentMeta

/-- The check of a re-upload, of the segment `s` and maybe some of those after it. -/
def safeReupload (s : SegmentMeta) (rest : List SegmentMeta) : Bool :=
  (p.prev m.baseOffset).all (fun prev => scrubSegmentMeta m (some prev) = []) &&
    if s.committedOffset = m.committedOffset then s.sizeBytes ≠ m.sizeBytes
    else rest.any (·.committedOffset = m.committedOffset)

/-- The check of one segment in `safe_segment_meta_to_add`. -/
def checkSegment (subst : ManifestSubstitute) (m : SegmentMeta) : Option ManifestSubstitute :=
  if p.segments = [] ∧ subst.lastSegment = none then
    -- An empty manifest can be started from any offset, or after its last segment
    if subst.lastOffset = 0 ∨ nextOffset p.lastOffset = m.baseOffset then
      some ⟨m.committedOffset, some m⟩
    else none
  else
    match p.find m.baseOffset with
    | none =>
      if scrubSegmentMeta m subst.lastSegment = [] then some ⟨m.committedOffset, some m⟩ else none
    | some (s, rest) => if p.safeReupload m s rest then some subst else none

/-- The loop of `safe_segment_meta_to_add`. -/
def checkSegments : ManifestSubstitute → List SegmentMeta → Nat
  | _, [] => 0
  | subst, m :: l =>
    match p.checkSegment subst m with
    | none => 0
    | some subst => checkSegments subst l + 1

/-- `safe_segment_meta_to_add`: how many segments, from the first one on, can be added safely. -/
def safeSegmentMetaToAdd (l : List SegmentMeta) : Nat :=
  p.checkSegments ⟨p.lastOffset, p.segments.getLast?⟩ l

/-! ### The start of the log -/

/-- `segment_containing`. -/
def segmentContaining : Option (List SegmentMeta) :=
  if p.lastOffset < o then none
  else
    match (p.segments.takeWhile (·.baseOffset ≤ o)).getLast? with
    | none => none
    | some s =>
      if s.baseOffset ≤ o ∧ o ≤ s.committedOffset then
        some (s :: p.segments.dropWhile (·.baseOffset ≤ o))
      else none

/-- `advance_start_offset`; `none` if it returns false, with nothing changed. -/
def advanceStartOffset (newStartOffset : Int) : Option PartitionManifest :=
  if p.startOffset < newStartOffset then
    match (p.segments.takeWhile (·.baseOffset ≤ newStartOffset)).getLast? with
    | none => none
    | some prev =>
      let it := p.segments.dropWhile (·.baseOffset ≤ newStartOffset)
      let newHead := if newStartOffset ≤ prev.committedOffset then prev :: it else it
      let advanced := (newHead.head?.map SegmentMeta.baseOffset).getD newStartOffset
      if advanced < p.startOffset then none
      else
        let previousHead := (p.segmentContaining p.startOffset).getD p.segments
        -- the segments from the previous head to the new one
        let removed := previousHead.take (previousHead.length - newHead.length)
        some (removed.foldl (fun p s => p.subtractFromCloudLogSize s.sizeBytes)
          { p with startOffset := advanced })
  else none

/-- `truncate`, at the start offset. The first manifest has the segments removed. -/
def truncate : PartitionManifest × PartitionManifest :=
  let removed := (p.segments.takeWhile (·.baseOffset < p.startOffset)).takeWhile
    (·.committedOffset < p.startOffset)
  let segments := p.segments.dropWhile (·.baseOffset < p.startOffset)
  (removed.foldl add {}, { p with
    segments := segments
    startOffset := if segments = [] then Offset.min else p.startOffset })

/-- `truncate`, at a new start offset; `none` if it throws, with nothing changed. -/
def truncateAt : Option (PartitionManifest × PartitionManifest) :=
  (p.advanceStartOffset o).map truncate

/-- `delete_replaced_segments`. -/
def deleteReplacedSegments : PartitionManifest :=
  { p with replaced := [] }

/-! ### Spillover manifests -/

/-- `safe_spillover_manifest`. -/
def safeSpilloverManifest : Bool :=
  p.getStartOffset = some m.baseOffset ∧
    (p.find (nextOffset m.committedOffset)).isSome ∧
    p.spilloverManifests.getLast?.all (nextOffset ·.committedOffset = m.baseOffset)

/-- `spillover`; `none` if it throws, with nothing changed. -/
def spillover : Option PartitionManifest :=
  (p.truncateAt (nextOffset m.committedOffset)).map fun (removed, p) =>
    { p with
      spilloverManifests := p.spilloverManifests ++ [m]
      archiveSizeBytes := p.archiveSizeBytes + removed.cloudLogSize }

variable {p m} in
theorem spillover_eq_some {p' : PartitionManifest}
    (h : p.spillover m = some p') :
    ∃ q, p.advanceStartOffset (nextOffset m.committedOffset) = some q ∧
      p' = { q.truncate.2 with
        spilloverManifests := q.truncate.2.spilloverManifests ++ [m]
        archiveSizeBytes := q.truncate.2.archiveSizeBytes + q.truncate.1.cloudLogSize } := by
  obtain ⟨r, htruncate, rfl⟩ := Option.map_eq_some_iff.1 h
  obtain ⟨q, hadvance, rfl⟩ := Option.map_eq_some_iff.1 htruncate
  exact ⟨q, hadvance, rfl⟩

/-! ### The size of the log -/

/-- The value of a 64 bit integer converted to one with 32 bits. -/
def toInt32 (z : Int) : Int := (z + 2 ^ 31) % 2 ^ 32 - 2 ^ 31

/-- `std::accumulate` from the literal `0`, an `int`, to which each sum is converted. -/
def accumulate (sizes : List Nat) : Int :=
  sizes.foldl (fun (acc : Int) (size : Nat) => toInt32 (acc + size)) 0

/-- `compute_cloud_log_size`, from the columns of the base offsets and of the sizes. -/
def computeCloudLogSize : Nat :=
  match p.find p.startOffset with
  | none => 0
  | some (s, rest) => (accumulate ((s :: rest).map SegmentMeta.sizeBytes) % 2 ^ 64).toNat

end PartitionManifest

end Redpanda.CloudStorage
