import Redpanda.Lib.OrderedStore
import Redpanda.Lib.Run
import Redpanda.LevelOne.State

/-!
# Updates of the in-memory metastore

`simple_metastore` keeps the state of all partitions and objects in memory. An update is
checked against the state (`can_apply`) and then changes it (`apply`).

Where the code takes the time from the clock, the time is an argument. The maps from
topics to partitions are one map here. What the code does only in debug builds (`dassert`)
is left out.
-/

namespace Redpanda.LevelOne

open Lib Model

/-! ## The state -/

/-- The fields of a term start in the order in which term starts are compared. -/
def TermStart.fields (t : TermStart) : Int ×ₗ Int :=
  toLex (t.termId, t.startOffset)

theorem TermStart.fields_injective : Function.Injective TermStart.fields := by
  rintro ⟨⟩ ⟨⟩ h
  simpa [TermStart.fields] using h

instance : LinearOrder TermStart :=
  LinearOrder.lift' TermStart.fields TermStart.fields_injective

/-- `absl::btree_set`. -/
abbrev BtreeSet (α : Type) [LinearOrder α] := OrderedStore (id : α → α)

structure PartitionState where
  extents : BtreeSet Extent := .empty
  startOffset : Int := 0
  nextOffset : Int := 0
  compactionState : Option CompactionState := none
  compactionEpoch : Int := 0
  termStarts : BtreeSet TermStart := .empty

structure State where
  partitions : AList fun _ : TopicIdPartition => PartitionState
  objects : ObjectEntries

variable (s : State) (tidp : TopicIdPartition) (objects : ObjectEntries) (extents : List Extent)

namespace State

def empty : State := ⟨∅, ∅⟩

def partitionState : Option PartitionState :=
  s.partitions.lookup tidp

/-- The state of a partition, which `operator[]` creates if it is not there. -/
def partition : PartitionState :=
  (s.partitionState tidp).getD {}

def setPartition (p : PartitionState) : State :=
  { s with partitions := s.partitions.insert tidp p }

/-- The offset at which new extents of a partition have to begin. -/
def expectedNext : Int :=
  match s.partitionState tidp with
  | some p => p.nextOffset
  | none => 0

/-- The extents of a request begin at the expected offset. Others are dropped. -/
def IsAligned (p : Sigma fun _ : TopicIdPartition => List Extent) : Prop :=
  p.2.head?.any (·.baseOffset = s.expectedNext p.1)
  deriving Decidable

end State

/-- An object is changed, after `operator[]` created it if it was not there. -/
def updateObject (oid : ObjectId) (f : ObjectEntry → ObjectEntry) : ObjectEntries :=
  objects.insert oid (f ((objects.lookup oid).getD { lastUpdated := -1 }))

/-- The data of an extent is added to its object. -/
def addData (e : Extent) : ObjectEntries :=
  updateObject objects e.oid fun o => { o with totalDataSize := o.totalDataSize + e.len }

/-- The data of an extent is removed from its object. -/
def removeData (e : Extent) : ObjectEntries :=
  updateObject objects e.oid fun o => { o with removedDataSize := o.removedDataSize + e.len }

/-- The objects of a request replace the entries that are preregistered for them. -/
def registerObjects (newObjects : List NewObject) (now : Int) : ObjectEntries :=
  newObjects.foldl (fun objects o => objects.insert o.oid
    { footerPos := o.footerPos, objectSize := o.objectSize, lastUpdated := now }) objects

namespace State

/-- The objects of a request have to be preregistered. -/
def checkPreregistered (newObjects : List NewObject) : Except UpdateError Unit :=
  newObjects.forM fun o =>
    match s.objects.lookup o.oid with
    | none => .error (.notPreregistered o.oid)
    | some entry => if entry.isPreregistration then .ok () else .error (.alreadyExists o.oid)

/-- The loop of `remove_extents_below_start_offset_for_tp`, which has not returned if it is still
    running after some rounds. A round removes the first extent if it ends below the start of the
    log. If its object is missing, the loop goes on with the same extent. -/
def removeExtents (startOffset : Int) (rounds : Nat) (extents : BtreeSet Extent)
    (objects : ObjectEntries) : Except UpdateError (BtreeSet Extent × ObjectEntries) :=
  match extents.rows with
  | [] => .ok (extents, objects)
  | e :: _ =>
    if e.lastOffset ≥ startOffset then .ok (extents, objects)
    else match rounds with
      | 0 => .error .noReturn
      | rounds + 1 =>
        if e.oid ∈ objects then
          removeExtents startOffset rounds extents.tail (removeData objects e)
        else removeExtents startOffset rounds extents objects

/-- `remove_extents_below_start_offset_for_tp`, with a bound for the rounds of its loop. -/
def removeExtentsBelowStartOffset (rounds : Nat) (tp : TopicIdPartition) :
    Except UpdateError State := do
  let p := s.partition tp
  let (extents, objects) ← removeExtents p.startOffset rounds p.extents s.objects
  return { partitions := s.partitions.insert tp { p with extents }, objects }

end State

/-! ## Adding objects -/

structure AddObjectsUpdate where
  newObjects : List NewObject
  newTerms : AList fun _ : TopicIdPartition => List TermStart

namespace State

/-- Aligned extents have to be contiguous, and to come with terms. -/
def checkNewExtents (newTerms : AList fun _ : TopicIdPartition => List TermStart)
    (p : Sigma fun _ : TopicIdPartition => List Extent) : Except UpdateError Unit :=
  if s.IsAligned p then do
    checkExtents p.1 (s.expectedNext p.1) p.2
    if p.1 ∉ newTerms then .error (.missingTerms p.1) else .ok ()
  else .ok ()

/-- The first of the new terms has to follow the last one there is, or to continue it. -/
def checkLastTerm (tp : TopicIdPartition) (first : TermStart) : Except UpdateError Unit :=
  match (s.partitionState tp).bind (·.termStarts.seekToLast) with
  | some last =>
    if first.termId < last.termId then .error (.termBelowLast tp first.termId last.termId)
    else if first.startOffset ≤ last.startOffset then
      .error (.termStartBelowLast tp first.startOffset last.startOffset)
    else .ok ()
  | none => .ok ()

/-- The new terms of a partition have to match its new extents, if those are aligned. -/
def checkNewTerms (newExtents : SortedExtents) (tp : TopicIdPartition)
    (terms : List TermStart) : Except UpdateError Unit :=
  let extents := (newExtents.lookup tp).getD []
  match terms.head?, terms.getLast?, extents.head?, extents.getLast? with
  | some firstTerm, some lastTerm, some firstExtent, some lastExtent => do
    checkTerms tp ⟨-1, -1⟩ terms
    if ¬ s.IsAligned ⟨tp, extents⟩ then .ok ()
    else if firstExtent.baseOffset ≠ firstTerm.startOffset then
      .error (.startMismatch tp firstExtent.baseOffset firstTerm.startOffset)
    else if lastExtent.lastOffset < lastTerm.startOffset then
      .error (.extentsEndBelowTerm tp lastExtent.lastOffset lastTerm.startOffset)
    else s.checkLastTerm tp firstTerm
  | some _, some _, _, _ => .error (.termsWithoutExtents tp)
  | _, _, _, _ => .error (.emptyTerms tp)

end State

namespace PartitionState

variable (p : PartitionState)

def insertExtents (extents : List Extent) : PartitionState :=
  { p with extents := extents.foldl (fun l e => l.put e) p.extents }

/-- The log ends with the last extent. -/
def extendNextOffset : PartitionState :=
  match p.extents.seekToLast with
  | some e => { p with nextOffset := Model.nextOffset e.lastOffset }
  | none => p

/-- The terms of a request are added, without the first one if it is not new. -/
def appendTerms (terms : List TermStart) : PartitionState :=
  let newTerms := match p.termStarts.seekToLast, terms with
    | some last, first :: rest => if first.termId ≤ last.termId then rest else terms
    | _, _ => terms
  { p with termStarts := newTerms.foldl (fun l t => l.put t) p.termStarts }

end PartitionState

namespace State

/-- Extents that are aligned are added to their partition. -/
def acceptExtents (terms : Option (List TermStart)) : Except UpdateError State :=
  match terms with
  | none => .error (.missingTerms tidp)
  | some terms =>
    let p := ((s.partition tidp).insertExtents extents).extendNextOffset
    .ok { partitions := s.partitions.insert tidp (p.appendTerms terms)
          objects := extents.foldl addData s.objects }

/-- Extents that are not aligned count as removed. -/
def dropExtents : State :=
  { s with objects := extents.foldl (fun objects e => addData (removeData objects e) e) s.objects }

end State

namespace AddObjectsUpdate

/-- `add_objects_update::can_apply`, with the expected offsets of the partitions whose
    extents are dropped. -/
def canApply (u : AddObjectsUpdate) (s : State) :
    Except UpdateError (List (TopicIdPartition × Int)) :=
  if u.newObjects.isEmpty then .error .noObjects
  else if u.newTerms.entries.isEmpty then .error .noTerms
  else do
    s.checkPreregistered u.newObjects
    let newExtents := collectExtents u.newObjects
    newExtents.entries.forM (s.checkNewExtents u.newTerms)
    u.newTerms.entries.forM fun p => s.checkNewTerms newExtents p.1 p.2
    return (newExtents.entries.filter (¬ s.IsAligned ·)).map fun p => (p.1, s.expectedNext p.1)

def apply (u : AddObjectsUpdate) (s : State) (now : Int) : Except UpdateError State := do
  let _ ← u.canApply s
  let s := { s with objects := registerObjects s.objects u.newObjects now }
  (collectExtents u.newObjects).entries.foldlM (fun s p =>
    if s.IsAligned p then s.acceptExtents p.1 p.2 (u.newTerms.lookup p.1)
    else .ok (s.dropExtents p.2)) s

end AddObjectsUpdate

/-! ## Replacing objects -/

structure ReplaceObjectsUpdate where
  newObjects : List NewObject
  compactionUpdates : AList fun _ : TopicIdPartition => CompactionStateUpdate

/-- `std::ranges::lower_bound`: the position of the first extent that is not below an
    offset. -/
def lowerBound (offset : Extent → Int) (o : Int) : Nat :=
  (extents.takeWhile (offset · < o)).length

/-- The position of the first extent that is not below an offset, which has to be at it. -/
def exactPosition (offset : Extent → Int) (o : Int) : Option Nat :=
  let it := lowerBound extents offset o
  if extents[it]?.any (offset · = o) then some it else none

/-- `get_range`: the positions of the first and the last of the extents that span a range
    of offsets. A range that begins below the start of the log begins with the first
    extent. -/
def getRange (base last logStartOffset : Int) : Option (Nat × Nat) :=
  (if logStartOffset ≤ base then exactPosition extents (·.baseOffset) base else some 0).bind
    fun baseIt => (exactPosition extents (·.lastOffset) last).map fun lastIt => (baseIt, lastIt)

namespace PartitionState

/-- The ranges cleaned by a compaction have to be spanned by the new extents, which have to
    reach down to the start of the log. Ranges with tombstones do not overlap. -/
def checkCleanedRanges (p : PartitionState) (tidp : TopicIdPartition) (newExtents : List Extent)
    (update : CompactionStateUpdate) : Except UpdateError Unit :=
  match newExtents.head?, newExtents.getLast?, update.newCleanedRanges.head?,
      update.newCleanedRanges.getLast? with
  | some firstExtent, some lastExtent, some firstRange, some lastRange =>
    if lastExtent.lastOffset < lastRange.lastOffset then
      .error (.cleanedAboveExtents tidp lastRange.lastOffset lastExtent.lastOffset)
    else if firstRange.baseOffset < firstExtent.baseOffset then
      .error (.cleanedBelowExtents tidp firstExtent.baseOffset firstRange.baseOffset)
    else if p.startOffset < firstExtent.baseOffset then
      .error (.cleanedAboveStart tidp firstExtent.baseOffset p.startOffset)
    else update.newCleanedRanges.forM fun r =>
      if r.hasTombstones ∧
          p.compactionState.any (¬ ·.mayAdd (r.withTombstones update.cleanedAt)) then
        .error (.tombstonesOverlap tidp r.baseOffset r.lastOffset)
      else .ok ()
  | _, _, _, _ => .ok ()

/-- Adding the ranges cleaned by a compaction, and removing those without tombstones left. -/
def compact (p : PartitionState) (update : CompactionStateUpdate) : PartitionState :=
  let state := p.compactionState.getD .empty
  let state := update.newCleanedRanges.foldl (fun state r =>
    let state := { state with cleanedRanges :=
      (OffsetIntervalSet.insertRange state.cleanedRanges r.baseOffset r.lastOffset).1 }
    if r.hasTombstones then (state.add (r.withTombstones update.cleanedAt)).1 else state) state
  let state := (OffsetIntervalSet.toVec update.removedTombstonesRanges).foldl (fun state r =>
    (state.eraseContiguousRangeWithTombstones r.baseOffset r.lastOffset).1) state
  { p with compactionState := some state, compactionEpoch := p.compactionEpoch + 1 }

end PartitionState

namespace State

/-- Extents of the partition have to span the intervals of the new extents exactly. -/
def checkIntervals (intervals : List Interval) : Except UpdateError Unit :=
  intervals.forM fun i =>
    match s.partitionState tidp with
    | none => .error (.notTracked tidp)
    | some p =>
      if (getRange p.extents.rows i.baseOffset i.lastOffset p.startOffset).isSome then .ok ()
      else .error (.noExactExtents tidp i.baseOffset i.lastOffset)

/-- The compaction update of a partition has to be based on the current epoch, and on
    the new extents. The partition is read without a check that it is there. -/
def checkCompaction (newExtents : SortedExtents) (tidp : TopicIdPartition)
    (update : CompactionStateUpdate) : Except UpdateError Unit :=
  match s.partitionState tidp with
  | none => .error .noReturn
  | some p =>
    if update.expectedCompactionEpoch ≠ p.compactionEpoch then
      .error (.epochMismatch tidp update.expectedCompactionEpoch p.compactionEpoch)
    else match newExtents.lookup tidp with
      | none => .error (.cleanedWithoutExtents tidp)
      | some extents => do
        p.checkCleanedRanges tidp extents update
        (OffsetIntervalSet.toVec update.removedTombstonesRanges).forM fun r =>
          if p.compactionState.any (·.hasContiguousRangeWithTombstones r.baseOffset r.lastOffset)
          then .ok ()
          else .error (.tombstonesNotTracked tidp r.baseOffset r.lastOffset)

/-- Removing the extents that span an interval. -/
def replaceRange (interval : Interval) : Except UpdateError State :=
  let p := s.partition tidp
  match getRange p.extents.rows interval.baseOffset interval.lastOffset p.startOffset with
  | none => .error .noReturn
  | some (baseIt, lastIt) =>
    -- otherwise the loop from the first to the last extent runs past the end
    if lastIt + 1 < baseIt then .error .noReturn
    else
      let old := (p.extents.rows.take (lastIt + 1)).drop baseIt
      .ok { partitions := s.partitions.insert tidp { p with extents := p.extents.removeAll old }
            objects := old.foldl removeData s.objects }

/-- Adding the new extents of a partition. -/
def insertExtents : State where
  partitions := s.partitions.insert tidp ((s.partition tidp).insertExtents extents)
  objects := extents.foldl addData s.objects

end State

namespace ReplaceObjectsUpdate

def canApply (u : ReplaceObjectsUpdate) (s : State) : Except UpdateError Unit :=
  if u.newObjects.isEmpty then .error .noObjects
  else do
    s.checkPreregistered u.newObjects
    let newExtents := collectExtents u.newObjects
    newExtents.entries.forM fun p => checkNotInverted p.1 p.2
    let intervals ← contiguousIntervalsForExtents newExtents
    intervals.entries.forM fun p => s.checkIntervals p.1 p.2
    u.compactionUpdates.entries.forM fun p => s.checkCompaction newExtents p.1 p.2

def apply (u : ReplaceObjectsUpdate) (s : State) (now : Int) : Except UpdateError State := do
  u.canApply s
  let newExtents := collectExtents u.newObjects
  let s := { s with objects := registerObjects s.objects u.newObjects now }
  let intervals ← contiguousIntervalsForExtents newExtents
  let s ← intervals.entries.foldlM (fun s p => p.2.foldlM (fun s i => s.replaceRange p.1 i) s) s
  let s := newExtents.entries.foldl (fun s p => s.insertExtents p.1 p.2) s
  -- a round that gets on removes an extent
  let s ← newExtents.entries.foldlM (fun s p =>
    s.removeExtentsBelowStartOffset (s.partition p.1).extents.rows.length p.1) s
  return u.compactionUpdates.entries.foldl (fun s p =>
    s.setPartition p.1 ((s.partition p.1).compact p.2)) s

end ReplaceObjectsUpdate

/-! ## Moving the start of the log -/

structure SetStartOffsetUpdate where
  tp : TopicIdPartition
  newStartOffset : Int
  deriving DecidableEq

namespace SetStartOffsetUpdate

/-- `set_start_offset_update::can_apply`, which also tells if there is nothing to do. -/
def canApply (u : SetStartOffsetUpdate) (s : State) : Except UpdateError Bool :=
  match s.partitionState u.tp with
  | none => .error (.notTracked u.tp)
  | some p =>
    if p.nextOffset < u.newStartOffset then
      .error (.startAboveNext u.tp u.newStartOffset p.nextOffset)
    else .ok (u.newStartOffset ≤ p.startOffset)

/-- The loop that removes terms while there is more than one, which has not returned if it is
    still running after some rounds. A round removes the first term if it starts below the new
    start of the log. -/
def removeTerms (newStartOffset : Int) (rounds : Nat) (terms : BtreeSet TermStart) :
    Except UpdateError (BtreeSet TermStart) :=
  match terms.rows with
  | t :: _ :: _ =>
    match rounds with
    | 0 => .error .noReturn
    | rounds + 1 =>
      removeTerms newStartOffset rounds (if t.startOffset < newStartOffset then terms.tail else terms)
  | _ => .ok terms

/-- `set_start_offset_update::apply`, with a bound for the rounds of each of its loops. -/
def applyWithin (rounds : Nat) (u : SetStartOffsetUpdate) (s : State) :
    Except UpdateError State := do
  let isNoOp ← u.canApply s
  if isNoOp then return s
  else
    let s := s.setPartition u.tp { s.partition u.tp with startOffset := u.newStartOffset }
    let s ← s.removeExtentsBelowStartOffset rounds u.tp
    let p := s.partition u.tp
    let termStarts ← removeTerms u.newStartOffset rounds p.termStarts
    return s.setPartition u.tp { p with
      termStarts
      compactionState := p.compactionState.map (·.truncateWithNewStartOffset u.newStartOffset) }

/-- With as many rounds as there are extents and terms, of which each round that gets on removes
    one. More rounds do not change anything. -/
def apply (u : SetStartOffsetUpdate) (s : State) : Except UpdateError State :=
  let p := s.partition u.tp
  u.applyWithin (p.extents.rows.length + p.termStarts.rows.length) s

end SetStartOffsetUpdate

/-! ## Removing topics and objects -/

namespace State

/-- The topic's partitions are removed, and the data of their extents from the objects
    that are there. -/
def removeTopic (tid : TopicId) : State where
  partitions := ⟨s.partitions.entries.filter (·.1.topicId ≠ tid),
    s.partitions.nodupKeys.sublist List.filter_sublist⟩
  objects := ((s.partitions.entries.filter (·.1.topicId = tid)).flatMap (·.2.extents.rows)).foldl
    (fun objects e => if e.oid ∈ objects then removeData objects e else objects) s.objects

/-- `remove_topics_update::apply`. -/
def removeTopics (topics : List TopicId) : State :=
  topics.foldl removeTopic s

/-- `remove_objects_update::can_apply`. -/
def checkUnreferenced (objects : List ObjectId) : Except UpdateError Unit :=
  objects.forM fun oid =>
    match s.objects.lookup oid with
    | none => .ok ()
    | some entry =>
      if entry.totalDataSize ≠ entry.removedDataSize then
        .error (.stillReferenced oid entry.removedDataSize entry.totalDataSize)
      else .ok ()

/-- `remove_objects_update::apply`. -/
def removeObjects (objects : List ObjectId) : Except UpdateError State := do
  s.checkUnreferenced objects
  return { s with objects := objects.foldl (fun objects oid => objects.erase oid) s.objects }

/-- `preregister_objects_update::apply`. -/
def preregisterObjects (objectIds : List ObjectId) (registeredAt : Int) :
    Except UpdateError State := do
  objectIds.forM fun oid => if oid ∈ s.objects then .error (.alreadyExists oid) else .ok ()
  return { s with objects := objectIds.foldl (fun objects oid =>
    objects.insert oid { lastUpdated := registeredAt, isPreregistration := true }) s.objects }

/-- `expire_preregistered_objects_update::apply`. -/
def expirePreregisteredObjects (objectIds : List ObjectId) : State :=
  { s with objects := objectIds.foldl (fun objects oid =>
      match objects.lookup oid with
      | some entry => objects.insert oid { entry with isPreregistration := false }
      | none => objects) s.objects }

end State

/-! ## Runs of updates -/

/-- An update, with the time at which it is applied where that is used. -/
inductive StmUpdate
  | addObjects (update : AddObjectsUpdate) (now : Int)
  | replaceObjects (update : ReplaceObjectsUpdate) (now : Int)
  | setStartOffset (update : SetStartOffsetUpdate)
  | removeObjects (objects : List ObjectId)
  | removeTopics (topics : List TopicId)
  | preregisterObjects (objectIds : List ObjectId) (registeredAt : Int)
  | expirePreregisteredObjects (objectIds : List ObjectId)

def StmUpdate.apply : StmUpdate → Except UpdateError State
  | addObjects u now => u.apply s now
  | replaceObjects u now => u.apply s now
  | setStartOffset u => u.apply s
  | removeObjects objects => s.removeObjects objects
  | removeTopics topics => .ok (s.removeTopics topics)
  | preregisterObjects ids registeredAt => s.preregisterObjects ids registeredAt
  | expirePreregisteredObjects ids => .ok (s.expirePreregisteredObjects ids)

/-- The state accepts an update. -/
def State.Step (u : StmUpdate) (s' : State) : Prop :=
  u.apply s = .ok s'

end Redpanda.LevelOne
