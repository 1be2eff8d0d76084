import Redpanda.Compaction.KeyIndex

/-!
# Compaction of a log

The closed segments of a log are compacted in rounds. A round (`CompactedLog.slidingWindowCompact`)
self compacts the segments of a window, indexes them from the newest one down into a bounded map of
keys to offsets (`buildOffsetMap`), and rewrites all of them: a record goes if the map has a higher
offset for its key. The segments all of whose keys are in the map are marked as clean. If not even
the newest segment fits the map, its keys are indexed in chunks (`chunkedSlidingWindowCompact`).
A tombstone in a segment that has been clean for long enough goes as well (`LogSegment.shouldKeep`).
Between the rounds, adjacent segments are merged.

Records are those of data batches: other batches have no keys and stay. The index of a segment is
built and cleaned without spilling, so self compaction leaves one record of each key. A round that
is given up half way has rewritten only some of the segments: `progress` says how many, in each
pass over them. The window function works on the segments of the window only, as appending
and removing segments at the front do not interfere with it.
-/

namespace Redpanda.Compaction

open List

/-- A record of a data batch in a segment: its offset, the last offset of its batch, its enhanced
    key, and whether it has no value. -/
structure LogRecord where
  offset : Int
  batchLastOffset : Int
  key : CompactionKey
  isTombstone : Bool
  deriving DecidableEq

/-- The entry of a record in the index of its segment. -/
def LogRecord.entry (r : LogRecord) : CompactionKey × Int :=
  (cutKey r.key, r.offset)

/-- A segment, with its index of keys. Its last offset is stable. -/
structure LogSegment where
  baseOffset : Int
  stableOffset : Int
  records : List LogRecord := []
  index : List (CompactionKey × Int) := []
  hasSelfCompactTimestamp : Bool := false
  cleanCompactTimestamp : Option Int := none

/-- `compaction_config`, with the time and the features. -/
structure WindowConfig where
  maxRemovableLocalLogOffset : Int
  tombstoneRetentionMs : Option Int
  maxTombstoneRemoveOffset : Int
  now : Int
  keyOffsetMapMaxKeys : Nat
  compactionPlaceholderEnabled : Bool

/-- The entries of an index without those that have a newer one of the same key. -/
def newestEntries (l : List (CompactionKey × Int)) : List (CompactionKey × Int) :=
  l.filter fun e => ∀ e' ∈ l, e'.1 = e.1 → e'.2 ≤ e.2

namespace LogSegment

variable (cfg : WindowConfig) (s : LogSegment)

/-- `has_clean_compact_timestamp`. -/
def isClean : Bool :=
  s.cleanCompactTimestamp.isSome

/-- `may_have_compactible_records`. -/
def mayHaveCompactibleRecords : Bool :=
  s.records ≠ []

/-- `segment::is_compactible`. -/
def isCompactible : Bool :=
  s.stableOffset ≤ cfg.maxRemovableLocalLogOffset

/-- `is_past_tombstone_delete_horizon`. -/
def isPastTombstoneDeleteHorizon : Bool :=
  match s.cleanCompactTimestamp, cfg.tombstoneRetentionMs with
  | some t, some d => s.stableOffset ≤ cfg.maxTombstoneRemoveOffset ∧ d < cfg.now - t
  | _, _ => false

/-- `may_have_removable_tombstones`. -/
def mayHaveRemovableTombstones : Bool :=
  s.records.any LogRecord.isTombstone && s.isPastTombstoneDeleteHorizon cfg

/-- `should_keep`, for the records of data batches. -/
def shouldKeep (isLatestKey : LogRecord → Bool) (r : LogRecord) : Bool :=
  if ¬ cfg.compactionPlaceholderEnabled ∧ r.batchLastOffset = s.stableOffset ∧
      s.records.getLast? = some r then true
  else if r.isTombstone ∧ s.isPastTombstoneDeleteHorizon cfg then false
  else isLatestKey r

/-- `do_self_compact_segment`: the index is cleaned, and the records stay whose offsets are left in
    it. -/
def selfCompact : LogSegment :=
  { s with
    records := s.records.filter
      (s.shouldKeep cfg fun r => r.offset ∈ (newestEntries s.index).map Prod.snd)
    index := newestEntries s.index
    hasSelfCompactTimestamp := true }

/-- `self_compact_segment`. -/
def selfCompactSegment : LogSegment :=
  if s.isCompactible cfg ∧ (¬ s.hasSelfCompactTimestamp ∨ s.mayHaveRemovableTombstones cfg) then
    s.selfCompact cfg
  else s

/-- `mark_segment_as_finished_window_compaction`. The timestamp is set only once. -/
def markFinished (setClean : Bool) (s : LogSegment) : LogSegment :=
  if setClean then { s with cleanCompactTimestamp := some (s.cleanCompactTimestamp.getD cfg.now) }
  else s

/-- `make_concatenated_segment`, from the segment `s` and the ones after it. -/
def concatenate (l : List LogSegment) : LogSegment where
  baseOffset := s.baseOffset
  stableOffset := ((s :: l).getLast (cons_ne_nil s l)).stableOffset
  records := (s :: l).flatMap records
  index := (s :: l).flatMap index
  hasSelfCompactTimestamp := true
  cleanCompactTimestamp :=
    l.foldl (fun t s => do return max (← t) (← s.cleanCompactTimestamp)) s.cleanCompactTimestamp

end LogSegment

/-! ## The map from keys to offsets -/

/-- `key_offset_map`. -/
structure KeyOffsetMap where
  entries : AList (fun _ : CompactionKey => Int) := ∅
  maxOffset : Option Int := none

namespace KeyOffsetMap

variable (m : KeyOffsetMap)

def get (k : CompactionKey) : Option Int :=
  m.entries.lookup k

/-- The map with the offset for the key. -/
def set (k : CompactionKey) (o : Int) : KeyOffsetMap where
  entries := m.entries.insert k o
  maxOffset := some (m.maxOffset.elim o (max o))

/-- `put`, which fails if the map is full. -/
def put (capacity : Nat) (m : KeyOffsetMap) (e : CompactionKey × Int) : Option KeyOffsetMap :=
  match m.get e.1 with
  | some o => if o < e.2 then some (m.set e.1 e.2) else some m
  | none => if m.entries.keys.length < capacity then some (m.set e.1 e.2) else none

/-- `build_offset_map_for_segment`: the map with as many of the entries as fit, and whether all of
    them do. -/
def putAll (capacity : Nat) (m : KeyOffsetMap) :
    List (CompactionKey × Int) → KeyOffsetMap × Bool
  | [] => (m, true)
  | e :: l =>
    match m.put capacity e with
    | some m => putAll capacity m l
    | none => (m, false)

/-- The map has no offset as high as `o`. -/
def isBelow (o : Int) : Bool :=
  m.maxOffset.all (· < o)

end KeyOffsetMap

/-- `build_offset_map`, over the segments from the newest one down: the map, and the base offset of
    the oldest segment that is in it. -/
def buildOffsetMap (capacity : Nat) (m : KeyOffsetMap) (minIndexed : Option Int) :
    List LogSegment → KeyOffsetMap × Option Int
  | [] => (m, minIndexed)
  | s :: l =>
    if s.isClean then buildOffsetMap capacity m (some s.baseOffset) l
    else
      match m.putAll capacity s.index with
      | (m, true) => buildOffsetMap capacity m (some s.baseOffset) l
      | (m, false) => (m, minIndexed)

/-! ## Rewriting a segment -/

namespace LogSegment

variable (cfg : WindowConfig) (m : KeyOffsetMap) (s : LogSegment)

/-- `is_latest_record_for_enhanced_key`. -/
def isLatestRecord (r : LogRecord) : Bool :=
  (m.get r.key).all (· ≤ r.offset)

/-- `segment_needs_rewrite_with_offset_map`. -/
def needsRewriteWithOffsetMap : Bool :=
  s.index.any fun e => (m.get e.1).any (e.2 < ·)

/-- `deduplicate_segment`. -/
def deduplicate : LogSegment :=
  let records := s.records.filter (s.shouldKeep cfg (isLatestRecord m))
  { s with records := records, index := newestEntries (records.map LogRecord.entry) }

/-- `rewrite_segment_with_offset_map`. -/
def rewriteWithOffsetMap (isCleanCompacted : Bool) (s : LogSegment) : LogSegment :=
  if m.isBelow s.baseOffset ∨ ¬ s.mayHaveCompactibleRecords then s.markFinished cfg isCleanCompacted
  else (s.deduplicate cfg m).markFinished cfg isCleanCompacted

/-- What a round does with a segment of its window. -/
def compactWith (isCleanCompacted : Bool) (s : LogSegment) : LogSegment :=
  if s.mayHaveRemovableTombstones cfg ∨ s.needsRewriteWithOffsetMap m then
    s.rewriteWithOffsetMap cfg m isCleanCompacted
  else s.markFinished cfg isCleanCompacted

end LogSegment

/-! ## A round -/

/-- The first `n` segments rewritten by `f`. -/
def rewriteFirst (n : Nat) (f : LogSegment → LogSegment) (l : List LogSegment) : List LogSegment :=
  (l.take n).map f ++ l.drop n

/-- The records of a segment after an offset, as `map_building_reducer` indexes them. -/
def LogSegment.entriesAfter (s : LogSegment) (lastIndexed : Option Int) :
    List (CompactionKey × Int) :=
  (s.records.filter fun r => lastIndexed.all (· < r.offset)).map fun r => (r.key, r.offset)

section

variable (cfg : WindowConfig) (progress : List Nat) (l : List LogSegment) (s : LogSegment)

/-- The loop of `chunked_sliding_window_compact` over the segments `l` and `s`, which is the one
    that does not fit the map. The answer tells whether the loop has come to its end. -/
def chunkLoop :
    List Nat → Option Int → List LogSegment → LogSegment → (List LogSegment × LogSegment) × Bool
  | [], _, l, s => ((l, s), false)
  | n :: progress, lastIndexed, l, s =>
    let chunk := KeyOffsetMap.putAll cfg.keyOffsetMapMaxKeys {} (s.entriesAfter lastIndexed)
    let l' := rewriteFirst n (·.compactWith cfg chunk.1 false) l
    if n ≤ l.length then ((l', s), false)
    else
      let s' := s.compactWith cfg chunk.1 false
      if chunk.2 then ((l', s'), true)
      else chunkLoop progress chunk.1.maxOffset l' s'

/-- `chunked_sliding_window_compact`, with the new start of the window if there is one. -/
def chunkedSlidingWindowCompact : List LogSegment × Option (Option Int) :=
  match chunkLoop cfg progress none l s with
  | ((l, s), false) => (l ++ [s], none)
  | ((l, s), true) =>
    let l' := l ++ [s.markFinished cfg true]
    let roundComplete := l'.all fun s => ¬ s.mayHaveCompactibleRecords ∨ s.isClean
    (l', some (if roundComplete then none else some s.baseOffset))

/-- `sliding_window_compact` once the segments `l` and `s` of the window are chosen. -/
def compactWindow : List LogSegment × Option (Option Int) :=
  match buildOffsetMap cfg.keyOffsetMapMaxKeys {} none (l ++ [s]).reverse with
  | (_, none) => chunkedSlidingWindowCompact cfg progress l s
  | (m, some idxStartOffset) =>
    let n := progress.headD 0
    let l' := rewriteFirst n (fun s => s.compactWith cfg m (idxStartOffset ≤ s.baseOffset)) (l ++ [s])
    if n ≤ l.length then (l', none)
    else
      let front := ((l ++ [s]).head (append_ne_nil_of_right_ne_nil l (cons_ne_nil s []))).baseOffset
      (l', some (if idxStartOffset = front then none else some idxStartOffset))

/-- The window in the self compacted segments of the sliding range: the clean ones at the end are
    left out, and so are the ones without records at the beginning, which are clean. -/
def compactSelfCompacted (range : List LogSegment) :
    List LogSegment × Option (Option Int) :=
  let dirty := range.rdropWhile LogSegment.isClean
  let clean := range.rtakeWhile LogSegment.isClean
  let empty := (dirty.takeWhile fun s => ¬ s.mayHaveCompactibleRecords).map (·.markFinished cfg true)
  let window := dirty.dropWhile fun s => ¬ s.mayHaveCompactibleRecords
  match window.getLast? with
  | none => (empty ++ clean, none)
  | some s =>
    let result := compactWindow cfg progress window.dropLast s
    (empty ++ result.1 ++ clean, result.2)

/-- `sliding_window_compact`, on the segments of the sliding range. -/
def compactRange (range : List LogSegment) : List LogSegment × Option (Option Int) :=
  compactSelfCompacted cfg progress (range.map (·.selfCompactSegment cfg))

end

/-! ## The log -/

/-- A log: its closed segments, the one with the appender, the start of the compaction window, and
    all records that were ever appended. -/
structure CompactedLog where
  closed : List LogSegment := []
  active : LogSegment := { baseOffset := 0, stableOffset := -1 }
  lastCompactionWindowStartOffset : Option Int := none
  history : List LogRecord := []

/-- What can happen to a log. -/
inductive LogAction
  | append (records : List LogRecord) (lastOffset : Int)
  | roll
  | removeFront (n : Nat)
  | restart
  | selfCompact (i : Nat) (cfg : WindowConfig)
  | mergeAdjacent (i n : Nat) (cfg : WindowConfig)
  | slidingWindow (cfg : WindowConfig) (newStartOffset : Option Int) (progress : List Nat)

namespace CompactedLog

variable (l : CompactedLog) (cfg : WindowConfig) (newStartOffset : Option Int)

def records : List LogRecord :=
  (l.closed ++ [l.active]).flatMap LogSegment.records

/-- The base offset of the first segment. -/
def startOffset : Int :=
  (l.closed.head?.getD l.active).baseOffset

/-- A batch of which the last offset is `lastOffset`. -/
def appendBatch (records : List LogRecord) (lastOffset : Int) : Option CompactedLog :=
  if l.active.stableOffset < lastOffset ∧ records.Pairwise (fun r r' => r.offset < r'.offset) ∧
      ∀ r ∈ records, l.active.stableOffset < r.offset ∧ r.offset ≤ lastOffset ∧
        r.batchLastOffset = lastOffset then
    some
      { l with
        active :=
          { l.active with
            stableOffset := lastOffset
            records := l.active.records ++ records
            index := l.active.index ++ records.map LogRecord.entry }
        history := l.history ++ records }
  else none

/-- A new segment is opened, unless the active one is empty. -/
def roll : Option CompactedLog :=
  if l.active.baseOffset ≤ l.active.stableOffset then
    some
      { l with
        closed := l.closed ++ [l.active]
        active :=
          { baseOffset := l.active.stableOffset + 1, stableOffset := l.active.stableOffset } }
  else none

/-- `do_compact_adjacent_segments` for the `n` segments from the one at `i` on. -/
def compactAdjacentSegments (i n : Nat) (cfg : WindowConfig) : Option CompactedLog :=
  match (l.closed.drop i).take n with
  | s :: s' :: rest =>
    if ∀ x ∈ s :: s' :: rest, x.hasSelfCompactTimestamp ∧ x.isCompactible cfg then
      some
        { l with
          closed := l.closed.take i ++
            ((s.concatenate (s' :: rest)).selfCompact cfg :: (l.closed.drop i).drop n) }
    else none
  | _ => none

/-- The start of the window as `find_sliding_range` resets it. -/
def windowStart : Option Int :=
  l.lastCompactionWindowStartOffset.filter fun o => l.startOffset < o

/-- The segments that `find_sliding_range` does not stop at. -/
def isInWindow (s : LogSegment) : Bool :=
  s.isCompactible cfg ∧ l.windowStart.all (s.baseOffset < ·)

/-- The segment is about to be removed. -/
def isTruncated (s : LogSegment) : Bool :=
  newStartOffset.any (s.baseOffset < ·)

/-- The segments that `find_sliding_range` skips because they are being truncated. Base offsets
    increase, so they come first. -/
def skipped : List LogSegment :=
  (l.closed.takeWhile (l.isInWindow cfg)).takeWhile (isTruncated newStartOffset)

/-- `find_sliding_range`. -/
def findSlidingRange : List LogSegment :=
  (l.closed.takeWhile (l.isInWindow cfg)).dropWhile (isTruncated newStartOffset)

/-- `sliding_window_compact`. -/
def slidingWindowCompact (progress : List Nat) : CompactedLog :=
  let result := compactRange cfg progress (l.findSlidingRange cfg newStartOffset)
  { l with
    closed := l.skipped cfg newStartOffset ++ result.1 ++ l.closed.dropWhile (l.isInWindow cfg)
    lastCompactionWindowStartOffset := result.2.getD l.windowStart }

def next : LogAction → Option CompactedLog
  | .append records lastOffset => l.appendBatch records lastOffset
  | .roll => l.roll
  | .removeFront n => some { l with closed := l.closed.drop n }
  | .restart => some { l with lastCompactionWindowStartOffset := none }
  | .selfCompact i cfg => some { l with closed := l.closed.modify i (·.selfCompactSegment cfg) }
  | .mergeAdjacent i n cfg => l.compactAdjacentSegments i n cfg
  | .slidingWindow cfg newStartOffset progress =>
    some (l.slidingWindowCompact cfg newStartOffset progress)

end CompactedLog

end Redpanda.Compaction
