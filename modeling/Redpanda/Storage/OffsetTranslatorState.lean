import Redpanda.Lib.Gaps
import Redpanda.Model.Fundamental

/-!
# The state of offset translation

The embedding of `offset_translator_state`: a map from the last offset of every filtered batch of a
log to the first offset of the batch and to the delta which is in effect after it. The first entry
of the map stands for all that was removed at the start of the log, and only its delta counts.

The map is a list of its entries in the order of their keys (`lastOffset2batch`), in which an
iterator is a way to split the list in two: `lowerBound` and `upperBound` give the entries before
the iterator and those from it on. The functions which throw return an error, and what they would
have modified is unchanged then, as none of them throws after it has modified the map.
-/

namespace Redpanda.Storage

open Model Lib

/-- `batch_info` together with the key it has in the map. -/
structure BatchInfo where
  lastOffset : Int
  baseOffset : Int
  nextDelta : Int
  deriving DecidableEq

structure OffsetTranslatorState where
  lastOffset2batch : List BatchInfo := []
  deriving DecidableEq

/-- Why the functions throw. -/
inductive TranslationError where
  /-- `vassert`: the offsets map shouldn't be empty. -/
  | emptyMap
  /-- `vassert`: log offset search start too small. -/
  | searchStart (offset : Int)
  /-- A log offset is outside the translation range. -/
  | logOffsetRange (offset start : Int)
  /-- A data offset is outside the translation range. -/
  | dataOffsetRange (offset start : Int)
  | inconsistentAddGap (baseOffset lastOffset : Int)
  | truncateAtBase (offset base : Int)
  | truncateInBatch (offset baseOffset lastOffset : Int)
  | prefixTruncateInBatch (offset baseOffset lastOffset : Int)
  | emptyPersistedMap
  | inconsistentPersistedMap (baseOffset prevLastOffset : Int)
  deriving DecidableEq

/-! ## Iterators -/

section

variable (o : Int) (l : List BatchInfo)

/-- `lower_bound`: the entries before the first one whose key is not below the offset, and the
    others. -/
def lowerBound : List BatchInfo × List BatchInfo :=
  (l.takeWhile (·.lastOffset < o), l.dropWhile (·.lastOffset < o))

/-- `upper_bound`: the entries before the first one whose key is above the offset, and the
    others. -/
def upperBound : List BatchInfo × List BatchInfo :=
  (l.takeWhile (·.lastOffset ≤ o), l.dropWhile (·.lastOffset ≤ o))

end

/-- `emplace`: the entry is inserted unless its key is in the map. -/
def emplace (l : List BatchInfo) (e : BatchInfo) : List BatchInfo :=
  match lowerBound e.lastOffset l with
  | (before, []) => before ++ [e]
  | (before, it :: after) =>
    if it.lastOffset = e.lastOffset then l else before ++ e :: it :: after

namespace OffsetTranslatorState

/-- The translator with a delta for all offsets above one. -/
def ofBase (baseOffset baseDelta : Int) : OffsetTranslatorState where
  lastOffset2batch := [⟨baseOffset, baseOffset, baseDelta⟩]

variable (s : OffsetTranslatorState)

/-! ## Translation -/

def delta (o : Int) : Except TranslationError Int :=
  match s.lastOffset2batch with
  | [] => .ok 0
  | first :: rest =>
    let it := lowerBound o (first :: rest)
    match it.1.getLast? with
    | none => .error (.logOffsetRange o (nextOffset first.lastOffset))
    | some prev =>
      match it.2 with
      | [] => .ok prev.nextDelta
      | batch :: _ =>
        if o < batch.baseOffset then .ok prev.nextDelta
        else .ok (prev.nextDelta + (o - batch.baseOffset))

def fromLogOffset (o : Int) : Except TranslationError Int :=
  (s.delta o).map (o - ·)

/-- The loop of `to_log_offset`: the delta of the first interval in which the data offset is
    achievable. -/
def searchInterval (dataOffset : Int) : Int → List BatchInfo → Int
  | delta, [] => delta
  | delta, batch :: rest =>
    if dataOffset ≤ prevOffset batch.baseOffset - delta then delta
    else searchInterval dataOffset batch.nextDelta rest

def toLogOffset (dataOffset : Int) (hint : Int := Offset.min) : Except TranslationError Int :=
  match s.lastOffset2batch with
  | [] => .ok dataOffset
  | first :: rest =>
    if dataOffset = Offset.max then .ok dataOffset
    else
      let minLogOffset := nextOffset first.lastOffset
      let minDataOffset := minLogOffset - first.nextDelta
      if dataOffset < minDataOffset then .error (.dataOffsetRange dataOffset minDataOffset)
      else
        let searchStart := max (max hint dataOffset) minLogOffset
        let it := lowerBound searchStart (first :: rest)
        match it.1.getLast? with
        | none => .error (.searchStart searchStart)
        | some prev => .ok (dataOffset + searchInterval dataOffset prev.nextDelta it.2)

def lastDelta : Except TranslationError Int :=
  match s.lastOffset2batch.getLast? with
  | none => .error .emptyMap
  | some last => .ok last.nextDelta

/-! ## Updates -/

def addGap (baseOffset lastOffset : Int) : Except TranslationError OffsetTranslatorState :=
  match s.lastOffset2batch.head?, s.lastOffset2batch.getLast? with
  | some begin, some rbegin =>
    if lastOffset < begin.lastOffset then .ok s
    else if baseOffset ≤ rbegin.lastOffset then
      match s.lastOffset2batch.find? (·.lastOffset = lastOffset) with
      | none => .error (.inconsistentAddGap baseOffset lastOffset)
      | some it =>
        if it.baseOffset ≠ baseOffset then .error (.inconsistentAddGap baseOffset lastOffset)
        else .ok s
    else
      .ok ⟨emplace s.lastOffset2batch
        ⟨lastOffset, baseOffset, rbegin.nextDelta + (lastOffset - baseOffset + 1)⟩⟩
  | _, _ => .error .emptyMap

/-- The state, and whether the map changed. -/
def truncate (offset : Int) : Except TranslationError (OffsetTranslatorState × Bool) :=
  match s.lastOffset2batch with
  | [] => .error .emptyMap
  | first :: rest =>
    match lowerBound offset (first :: rest) with
    | ([], _) => .error (.truncateAtBase offset first.lastOffset)
    | (_, []) => .ok (s, false)
    | (before, it :: _) =>
      if it.baseOffset < offset then
        .error (.truncateInBatch offset it.baseOffset it.lastOffset)
      else .ok (⟨before⟩, true)

/-- The state, and whether the map changed. -/
def prefixTruncate (offset : Int) : Except TranslationError (OffsetTranslatorState × Bool) :=
  match s.lastOffset2batch with
  | [] => .error .emptyMap
  | first :: rest =>
    let it := upperBound offset (first :: rest)
    match it.2.head?.filter (·.baseOffset ≤ offset) with
    | some batch => .error (.prefixTruncateInBatch offset batch.baseOffset batch.lastOffset)
    | none =>
      match it.1.getLast? with
      | none => .ok (s, false)
      | some prev =>
        -- the entry before the iterator is the first one
        if it.1.length = 1 ∧ prev.lastOffset = offset then .ok (s, false)
        else .ok (⟨emplace it.2 ⟨offset, offset, prev.nextDelta⟩⟩, true)

end OffsetTranslatorState

/-! ## Serialization -/

/-- The conversion to `int32_t`. -/
def int32 (x : Int) : Int := x.bmod (2 ^ 32)

structure PersistedBatch where
  baseOffset : Int
  length : Int
  deriving DecidableEq

structure PersistedBatchesMap where
  startDelta : Int
  batches : List PersistedBatch
  deriving DecidableEq

namespace OffsetTranslatorState

def serializeMap (s : OffsetTranslatorState) : Except TranslationError PersistedBatchesMap :=
  match s.lastOffset2batch with
  | [] => .error .emptyMap
  | first :: rest => .ok
    { startDelta := first.nextDelta
      batches := (first :: rest).map fun b =>
        ⟨b.baseOffset, int32 (int32 (b.lastOffset - b.baseOffset) + 1)⟩ }

/-- The loop of `from_serialized_map` after the first batch. -/
def restoreBatches (map : List BatchInfo) (curDelta prevLastOffset : Int) :
    List PersistedBatch → Except TranslationError (List BatchInfo)
  | [] => .ok map
  | b :: rest =>
    if b.baseOffset ≤ prevLastOffset then
      .error (.inconsistentPersistedMap b.baseOffset prevLastOffset)
    else
      let lastOffset := b.baseOffset + (b.length - 1)
      restoreBatches (emplace map ⟨lastOffset, b.baseOffset, curDelta + b.length⟩)
        (curDelta + b.length) lastOffset rest

def fromSerializedMap (persisted : PersistedBatchesMap) :
    Except TranslationError OffsetTranslatorState :=
  match persisted.batches with
  | [] => .error .emptyPersistedMap
  | b :: rest =>
    let lastOffset := b.baseOffset + (b.length - 1)
    (restoreBatches [⟨lastOffset, b.baseOffset, persisted.startDelta⟩] persisted.startDelta
      lastOffset rest).map (⟨·⟩)

end OffsetTranslatorState

end Redpanda.Storage
