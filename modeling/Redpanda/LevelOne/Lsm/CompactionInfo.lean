import Redpanda.LevelOne.CompactionInfo
import Redpanda.LevelOne.Lsm.ExtentsTile

/-!
# Compaction info of the LSM metastore

What the LSM metastore tells about the compaction of a partition, and that its updates do to the
log of a partition what `CompactedLog.Step` says (`Store.RowsInv.step`). The start of the
log and the cleaned ranges are in different rows. The row of the cleaned ranges is left as it is
when the start of a log moves whose compaction epoch is zero: such a log has no cleaned ranges
(`Store.RowsInv`).
-/

namespace Redpanda.LevelOne.Lsm

open Lib Model Lib.Except List
open Container.IntervalSet (mem_def)
open Option (getD_some map_eq_some_iff)

inductive RpcErrc
  | missingNtp
  | timedOut
  deriving DecidableEq

structure GetCompactionInfoReply where
  dirtyRanges : OffsetIntervalSet := .empty
  removableTombstoneRanges : OffsetIntervalSet := .empty
  dirtyRatio : Rat := 0
  earliestDirtyTs : Option Int := none
  compactionEpoch : Int
  startOffset : Int

namespace Store

variable (s : Store)

/-- The extents of a partition as they are read, an error if the store is corrupt. -/
def readAllExtents (tp : TopicIdPartition) : Except RpcErrc (List Extent) :=
  match s.getInclusiveExtents tp none none with
  | none => .ok []
  | some range =>
    let result := s.getRows range
    if result.corruption then .error .timedOut else .ok (result.rows.map (·.2))

/-- `do_get_compaction_info`. -/
def getCompactionInfo (tp : TopicIdPartition) (upperBound : Int) :
    Except RpcErrc GetCompactionInfoReply :=
  match s.getMetadata tp with
  | none => .error .missingNtp
  | some metadata =>
    if metadata.nextOffset ≤ metadata.startOffset then
      .ok { compactionEpoch := metadata.compactionEpoch, startOffset := metadata.startOffset }
    else do
      let state := s.getCompactionMetadata tp
      let offsets :=
        compactionOffsets metadata.startOffset metadata.nextOffset state upperBound
      let cleaned := (state.map (·.cleanedRanges)).getD .empty
      let extents ← s.readAllExtents tp
      return {
        dirtyRanges := offsets.dirtyRanges
        removableTombstoneRanges := offsets.removableTombstoneRanges
        dirtyRatio := dirtyRatioOf metadata.startOffset cleaned extents
        earliestDirtyTs := earliestDirtyTsOf metadata.startOffset cleaned extents
        compactionEpoch := metadata.compactionEpoch
        startOffset := metadata.startOffset }

/-! ## The log of a partition -/

/-- The log of a partition, as far as compactions are concerned. -/
def compactedLog (t : TopicIdPartition) : CompactedLog where
  startOffset := (s.metadataOrInit t).startOffset
  nextOffset := (s.metadataOrInit t).nextOffset
  cleaned := ((s.getCompactionMetadata t).map (·.cleanedRanges)).getD .empty

/-- The ranges cleaned by a compaction touch the log of their partition. -/
def CleansLog : DbUpdate → Prop
  | .addObjects u _ => ∀ o ∈ u.newObjects, o.Fits
  | .replaceObjects u _ => ∀ p ∈ u.compactionUpdates.entries, ∀ r ∈ p.2.newCleanedRanges,
      (s.compactedLog p.1).Touches r.baseOffset r.lastOffset
  | _ => True

instance : DecidablePred s.CleansLog := fun u => by
  induction u using DbUpdate.casesOn <;> unfold CleansLog <;> infer_instance

/-- Only partitions with a compaction epoch have cleaned ranges. -/
structure RowsInv (s : Store) (t : TopicIdPartition) : Prop where
  epoch_nonneg : ∀ m, s.getMetadata t = some m → 0 ≤ m.compactionEpoch
  epoch_pos : ∀ state, s.getCompactionMetadata t = some state →
    ∃ m, s.getMetadata t = some m ∧ 0 < m.compactionEpoch

/-! ## What a batch writes -/

variable {s : Store} {t : TopicIdPartition} {rows : List WriteBatchRow}

section Batch

variable {row : Row}

theorem getCompactionMetadata_eq_some {state : CompactionState} :
    s.getCompactionMetadata t = some state ↔ Row.compaction t state ∈ s := by
  rw [getCompactionMetadata]
  constructor
  · intro h
    rcases hr : s.get (.compaction t) with - | r
    · simp [hr] at h
    · obtain ⟨hmem, hkey⟩ := OrderedStore.get_eq_some.1 hr
      rcases r with _ | _ | _ | ⟨t', state'⟩ | _ <;> simp [Row.key, hr] at hkey h
      exact hkey ▸ h ▸ hmem
  · intro h
    have hget : s.get (.compaction t) = some (.compaction t state) :=
      OrderedStore.get_eq_some.2 ⟨h, rfl⟩
    rw [hget]

theorem getCompactionMetadata_applyRows_of_ne (h : ∀ w ∈ rows, w.key ≠ .compaction t) :
    (s.applyRows rows).getCompactionMetadata t = s.getCompactionMetadata t :=
  Option.ext fun state => by
    rw [getCompactionMetadata_eq_some, getCompactionMetadata_eq_some]
    exact mem_applyRows_of_key_ne h

/-- The only write to a key decides which row it has. -/
theorem mem_applyRows_iff_of_unique {w : WriteBatchRow} (hw : w.key = row.key)
    (hmem : w ∈ rows) (h : ∀ w' ∈ rows, w'.key = row.key → w' = w) :
    row ∈ s.applyRows rows ↔ w = .put row := by
  induction rows using reverseRecOn with
  | nil => cases hmem
  | append_singleton rows w' ih =>
    rw [applyRows_append]
    rw [forall_mem_concat] at h
    by_cases hkey : w'.key = row.key
    · rw [h.2 hkey]
      cases w with
      | put r =>
        refine OrderedStore.mem_put.trans ⟨fun hrow => ?_, fun heq => ?_⟩
        · rw [hrow.resolve_right fun hrow => hrow.2 hw.symm]
        · exact .inl (WriteBatchRow.put.inj heq).symm
      | tombstone k =>
        exact iff_of_false (fun hrow => (OrderedStore.mem_erase.1 hrow).2 hw.symm)
          nofun
    · rw [mem_applyRows_of_key_ne (by simpa using hkey)]
      refine ih ((mem_concat.1 hmem).resolve_right fun heq => hkey (heq ▸ hw)) h.1

/-- A row is written if it is the only one that is written to its key. -/
theorem mem_applyRows_of_unique (hmem : .put row ∈ rows)
    (h : ∀ w ∈ rows, w.key = row.key → w = .put row) : row ∈ s.applyRows rows :=
  (mem_applyRows_iff_of_unique rfl hmem h).2 rfl

/-- Nothing is left of a key that is only removed. -/
theorem not_mem_applyRows_of_tombstone (hmem : .tombstone row.key ∈ rows)
    (h : ∀ w ∈ rows, w.key = row.key → w = .tombstone row.key) : row ∉ s.applyRows rows :=
  fun hrow => nomatch (mem_applyRows_iff_of_unique rfl hmem h).1 hrow

/-- The keys of extents that are read. -/
theorem exists_key_of_mem_getRows {range : Key × Key} {r : Key × Extent}
    (hr : r ∈ (s.getRows range).rows) : ∃ t o, r.1 = .extent t o := by
  have hread : ∀ rows : List Row, ∀ r ∈ (readExtents range.2 rows).rows, ∃ t o, r.1 = .extent t o := by
    intro rows
    induction rows with
    | nil => exact nofun
    | cons row rows ih =>
      intro r hr
      by_cases hlt : range.2 < row.key
      · rw [readExtents.eq_def] at hr
        simp only [if_pos hlt, not_mem_nil] at hr
      rcases row with _ | ⟨t, e⟩ | _ | _ | _ <;>
        simp only [readExtents, if_neg hlt, not_mem_nil] at hr
      split_ifs at hr
      · exact ⟨t, e.baseOffset, by rw [mem_singleton.1 hr]⟩
      · rcases mem_cons.1 hr with rfl | hr
        · exact ⟨t, e.baseOffset, rfl⟩
        · exact ih r hr
  rw [getRows] at hr
  rcases hrows : s.rowsFrom range.1 with - | ⟨row, rest⟩
  · simp only [hrows] at hr
    cases hr
  · simp only [hrows] at hr
    split_ifs at hr
    · exact hread _ r hr
    · cases hr

end Batch

/-! ## The updates -/

section Updates

variable {s' : Store}

/-- An update keeps the invariant of a partition, and makes a step of its log. -/
def Steps (s s' : Store) (t : TopicIdPartition) : Prop :=
  s'.RowsInv t ∧ (s.compactedLog t).Step (s'.compactedLog t)

section Metadata

variable {m : MetadataRowValue} (hm : s.getMetadata t = some m)

include hm

theorem RowsInv.of_metadata (hnonneg : 0 ≤ m.compactionEpoch)
    (hpos : ∀ state, s.getCompactionMetadata t = some state → 0 < m.compactionEpoch) :
    s.RowsInv t where
  epoch_nonneg m' hm' := by
    rw [Option.some.inj (hm'.symm.trans hm)]
    exact hnonneg
  epoch_pos state hstate := ⟨m, hm, hpos state hstate⟩

theorem RowsInv.pos (h : s.RowsInv t) {state : CompactionState}
    (hstate : s.getCompactionMetadata t = some state) : 0 < m.compactionEpoch := by
  obtain ⟨m₀, hm₀, hpos⟩ := h.epoch_pos state hstate
  rwa [Option.some.inj (hm₀.symm.trans hm)] at hpos

end Metadata

/-- An update that does not write the rows of a partition. -/
theorem RowsInv.congr (h : s.RowsInv t) (hm : s'.getMetadata t = s.getMetadata t)
    (hc : s'.getCompactionMetadata t = s.getCompactionMetadata t) : s.Steps s' t := by
  have hlog : s'.compactedLog t = s.compactedLog t := by
    rw [compactedLog, compactedLog, metadataOrInit, metadataOrInit, hm, hc]
  refine ⟨⟨?_, ?_⟩, hlog ▸ .refl⟩
  · rw [hm]
    exact h.epoch_nonneg
  · rw [hm, hc]
    exact h.epoch_pos

/-- A batch that does not write the rows of a partition. -/
theorem RowsInv.applyRows_of_ne (h : s.RowsInv t)
    (hm : ∀ w ∈ rows, w.key ≠ .metadata t) (hc : ∀ w ∈ rows, w.key ≠ .compaction t) :
    s.Steps (s.applyRows rows) t :=
  h.congr (getMetadata_applyRows_of_ne hm) (getCompactionMetadata_applyRows_of_ne hc)

/-- New extents move the end of the log up. -/
theorem nextOffset_le_extendedMetadata {extents : List Extent}
    (hfits : ∀ e ∈ extents, e.lastOffset ≤ Offset.max) (hne : extents ≠ [])
    (hcheck : checkExtents t (s.expectedNext t) extents = .ok ()) :
    (s.metadataOrInit t).nextOffset ≤ (s.extendedMetadata t extents).nextOffset ∧
      (s.extendedMetadata t extents).nextOffset ≤ Offset.max := by
  obtain ⟨e, he⟩ : ∃ e, extents.getLast? = some e := ⟨_, getLast?_eq_some_getLast hne⟩
  have hmem := mem_of_getLast? he
  obtain ⟨hbase, hlast⟩ := le_of_checkExtents hcheck e hmem
  simp only [extendedMetadata, he]
  refine ⟨?_, nextOffset_le_max (hfits e hmem)⟩
  calc
    (s.metadataOrInit t).nextOffset = s.expectedNext t := (s.expectedNext_eq t).symm
    _ ≤ e.baseOffset := hbase
    _ ≤ e.lastOffset := hlast
    _ ≤ nextOffset e.lastOffset := le_nextOffset _

variable {now : Int} {state state' : CompactionState} {old : Option PartitionUpdate}
  {update : PartitionUpdate}

theorem RowsInv.addObjects (h : s.RowsInv t) {u : AddObjectsDbUpdate} {result : AddObjectsRows}
    (hfits : ∀ o ∈ u.newObjects, o.Fits) (hresult : u.buildRows s now = .ok result) :
    s.Steps (s.applyRows result.rows) t := by
  obtain ⟨hvalid, aux, haux, hcaux, hrows⟩ := AddObjectsDbUpdate.buildRows_eq_ok hresult
  generalize hl : (collectExtents u.newObjects).entries.filter s.IsAligned = l at hrows
  have hsublist : l.Sublist (collectExtents u.newObjects).entries := hl ▸ filter_sublist
  have hnodup : l.NodupKeys := (collectExtents u.newObjects).nodupKeys.sublist hsublist
  have hc : (s.applyRows result.rows).getCompactionMetadata t = s.getCompactionMetadata t := by
    rw [hrows]
    refine getCompactionMetadata_applyRows_of_ne (forall_mem_append.2 ⟨forall_mem_append.2
      ⟨fun w hw => hcaux w hw t, forall_mem_map.2 ?_⟩, forall_mem_map.2 ?_⟩)
    · exact forall_mem_flatMap.2 fun _ _ => forall_mem_map.2 fun _ _ => by rintro ⟨⟩
    · exact forall_mem_map.2 fun _ _ => by rintro ⟨⟩
  -- the partition gets new extents only if they are aligned with its next offset
  by_cases ht : t ∈ l.keys
  · obtain ⟨extents, hp⟩ := exists_of_mem_keys ht
    have hm : (s.applyRows result.rows).getMetadata t = some (s.extendedMetadata t extents) := by
      rw [hrows, applyRows_append]
      exact getMetadata_put_of_mem (fun p => s.extendedMetadata p.1 p.2) hnodup hp
    have haligned : s.IsAligned ⟨t, extents⟩ := by
      rw [← hl] at hp
      exact of_decide_eq_true (mem_filter.1 hp).2
    have hmem := hsublist.subset hp
    obtain ⟨hnext, hmax⟩ := nextOffset_le_extendedMetadata
      (fun e he => lastOffset_le_of_fits hfits hmem he) (ne_nil_of_mem_collectExtents hmem)
      (AddObjectsDbUpdate.checkExtents_of_validateInputs hvalid hmem haligned)
    have hlog : (s.applyRows result.rows).compactedLog t =
        { s.compactedLog t with nextOffset := (s.extendedMetadata t extents).nextOffset } := by
      rw [compactedLog, metadataOrInit, hm, hc]
      rfl
    refine ⟨.of_metadata hm ?_ fun state hstate => ?_, hlog ▸ .append hnext hmax⟩
    · rcases hold : s.getMetadata t with - | m
      · simp [extendedMetadata, hold]
      · simpa [extendedMetadata, hold] using h.epoch_nonneg m hold
    · rw [hc] at hstate
      obtain ⟨m, hold, hpos⟩ := h.epoch_pos state hstate
      simpa [extendedMetadata, hold] using hpos
  · refine h.congr ?_ hc
    rw [hrows, applyRows_append, getMetadata_put_of_not_mem _ ht]
    refine getMetadata_applyRows_of_ne (forall_mem_append.2
      ⟨fun w hw => (haux w hw).1 t, forall_mem_map.2 ?_⟩)
    exact forall_mem_flatMap.2 fun _ _ => forall_mem_map.2 fun _ _ => by rintro ⟨⟩

theorem RowsInv.setStartOffset (h : s.RowsInv t) {u : SetStartOffsetDbUpdate}
    (hrows : u.buildRows s now = .ok rows) : s.Steps (s.applyRows rows) t := by
  rcases buildRows_setStartOffset hrows with rfl | ⟨m, removed, objects, termKeys, hm, hlt, hle,
    hremoved, hterms, hrows⟩
  · exact h.congr rfl rfl
  have hkeys : ∀ r ∈ removed, ∃ t o, r.1 = .extent t o := by
    rw [SetStartOffsetDbUpdate.removedExtents] at hremoved
    split at hremoved
    · cases hremoved
      exact forall_mem_nil _
    · obtain ⟨-, hremoved⟩ := ite_error_eq_ok.1 hremoved
      cases hremoved
      exact fun r hr => exists_key_of_mem_getRows (mem_filter.1 hr).1
  generalize hcompaction : (if 0 < m.compactionEpoch then (s.getCompactionMetadata u.tp).toList
    else []) = compaction at hrows
  -- the only rows of these types are the ones at the end
  have hwrites : ∀ w ∈ rows, (∀ t, w.key = .metadata t → t = u.tp) ∧
      (∀ t, w.key = .compaction t → t = u.tp ∧ ∃ state ∈ compaction,
        w = .put (.compaction u.tp (state.truncateWithNewStartOffset u.newStartOffset))) := by
    simp only [hrows, objectRows, forall_mem_append, forall_mem_map, forall_mem_singleton,
      WriteBatchRow.key, Row.key, reduceCtorEq, IsEmpty.forall_iff, implies_true, and_true, true_and,
      Key.metadata.injEq, Key.compaction.injEq]
    refine ⟨⟨fun r hr => ?_, fun k hk => ?_,
      fun state hstate _ ht => ⟨ht.symm, state, hstate, rfl⟩⟩, fun _ => Eq.symm⟩
    · obtain ⟨_, _, hkey⟩ := hkeys r hr
      simp [hkey]
    · obtain ⟨_, _, rfl⟩ := hterms k hk
      simp
  by_cases ht : t = u.tp
  · subst ht
    have hm' : (s.applyRows rows).getMetadata u.tp = some { m with
        startOffset := u.newStartOffset
        size := m.size - (removed.map (·.2.len)).sum
        numExtents := m.numExtents - removed.length } := by
      rw [hrows, applyRows_append]
      exact getMetadata_eq_some.2 (OrderedStore.mem_put.2 (.inl rfl))
    have hc : (s.applyRows rows).getCompactionMetadata u.tp =
        (s.getCompactionMetadata u.tp).map (·.truncateWithNewStartOffset u.newStartOffset) := by
      rcases hstate : s.getCompactionMetadata u.tp with - | state
      · rw [getCompactionMetadata_applyRows_of_ne fun w hw heq => ?_, hstate]
        · rfl
        · obtain ⟨_, _, hstate', -⟩ := (hwrites w hw).2 _ heq
          simp [← hcompaction, hstate] at hstate'
      · rw [if_pos (h.pos hm hstate), hstate, Option.toList_some] at hcompaction
        refine getCompactionMetadata_eq_some.2 (mem_applyRows_of_unique ?_ fun w hw heq => ?_)
        · simp [hrows, ← hcompaction]
        · obtain ⟨_, state', hstate', rfl⟩ := (hwrites w hw).2 _ heq
          rw [← hcompaction, mem_singleton] at hstate'
          rw [hstate']
    have hlog : (s.applyRows rows).compactedLog u.tp = { s.compactedLog u.tp with
        startOffset := u.newStartOffset
        cleaned := OffsetIntervalSet.truncateWithNewStartOffset (s.compactedLog u.tp).cleaned
          u.newStartOffset } := by
      rw [compactedLog, compactedLog, metadataOrInit, metadataOrInit, hm', hm, hc]
      rcases s.getCompactionMetadata u.tp with - | state <;> rfl
    refine ⟨.of_metadata hm' (h.epoch_nonneg m hm) fun state hstate => ?_, hlog ▸ .truncate ?_ ?_⟩
    · rw [hc] at hstate
      obtain ⟨state₀, hstate₀, -⟩ := map_eq_some_iff.1 hstate
      have hpos := h.pos hm hstate₀
      exact hpos
    · simpa only [compactedLog, metadataOrInit, hm, getD_some] using hlt
    · simpa only [compactedLog, metadataOrInit, hm, getD_some] using hle
  · exact h.applyRows_of_ne (fun w hw heq => ht ((hwrites w hw).1 t heq))
      fun w hw heq => ht ((hwrites w hw).2 t heq).1

/-! ## Compactions -/

/-- What is to be written for a partition that is not compacted: its log stays. -/
def Unchanged (s : Store) (t : TopicIdPartition) (update : PartitionUpdate) : Prop :=
  ∃ m, s.getMetadata t = some m ∧ update.metadata.startOffset = m.startOffset ∧
    update.metadata.nextOffset = m.nextOffset ∧
    update.metadata.compactionEpoch = m.compactionEpoch ∧ update.compactionState = none

/-- What is to be written for a partition that is compacted. -/
def Compacts (s : Store) (t : TopicIdPartition) (ranges : List CleanedRange)
    (update : PartitionUpdate) : Prop :=
  ∃ m, s.getMetadata t = some m ∧ update.metadata.startOffset = m.startOffset ∧
    update.metadata.nextOffset = m.nextOffset ∧
    update.metadata.compactionEpoch = m.compactionEpoch + 1 ∧
    ∃ state, update.compactionState = some state ∧
      state.cleanedRanges = ranges.foldl insertCleaned (s.compactedLog t).cleaned

/-- What is to be written for a partition before a loop comes to it. -/
theorem forall_getForUpdate {P : PartitionUpdate → Prop}
    (hold : ∀ update ∈ old, P update)
    (hnew : ∀ update, s.Unchanged t update → P update) (h : getForUpdate s t old = .ok update) :
    P update := by
  rw [getForUpdate.eq_def] at h
  rcases old with - | old
  · rcases hm : s.getMetadata t with - | m
    · simp [hm] at h
    · simp only [hm] at h
      cases h
      exact hnew _ ⟨m, hm, rfl, rfl, rfl, rfl⟩
  · cases h
    exact hold _ rfl

theorem cleanedRanges_applyCleanedRanges {cleanedAt : Int}
    {ranges : List CleanedRange} (h : applyCleanedRanges cleanedAt state ranges = .ok state') :
    state'.cleanedRanges = ranges.foldl insertCleaned state.cleanedRanges := by
  induction ranges generalizing state with
  | nil =>
    cases h
    rfl
  | cons r ranges ih =>
    rw [applyCleanedRanges] at h
    obtain ⟨-, h⟩ := ite_error_eq_ok.1 h
    obtain ⟨-, h⟩ := ite_error_eq_ok.1 h
    rw [ih h, foldl_cons]
    congr 1
    split_ifs
    · exact CompactionState.cleanedRanges_add _ _
    · rfl

theorem cleanedRanges_removeTombstones {ranges : List Interval}
    (h : removeTombstones t state ranges = .ok state') :
    state'.cleanedRanges = state.cleanedRanges := by
  induction ranges generalizing state with
  | nil =>
    cases h
    rfl
  | cons r ranges ih =>
    rw [removeTombstones] at h
    obtain ⟨-, h⟩ := ite_error_eq_ok.1 h
    obtain ⟨-, h⟩ := ite_error_eq_ok.1 h
    rw [ih h, CompactionState.cleanedRanges_eraseContiguousRangeWithTombstones]

theorem Unchanged.compactPartition
    {newExtents : SortedExtents} {compaction : CompactionStateUpdate}
    (hold : ∀ update ∈ old, s.Unchanged t update)
    (h : Lsm.compactPartition s newExtents t compaction old = .ok update) :
    s.Compacts t compaction.newCleanedRanges update := by
  obtain ⟨update₀, hupdate₀, h⟩ := bind_eq_ok.1 h
  obtain ⟨m, hm, hstart, hnext, hepoch, -⟩ := forall_getForUpdate hold (fun _ => id) hupdate₀
  obtain ⟨state, hstate, h⟩ := bind_eq_ok.1 h
  obtain ⟨_, -, h⟩ := bind_eq_ok.1 h
  cases h
  refine ⟨m, hm, hstart, hnext, congrArg (· + 1) hepoch, state, rfl, ?_⟩
  rw [mergeCompactionState, ite_error_eq_ok] at hstate
  obtain ⟨_, -, hstate⟩ := bind_eq_ok.1 hstate.2
  obtain ⟨state₁, hstate₁, hstate⟩ := bind_eq_ok.1 hstate
  rw [cleanedRanges_removeTombstones hstate, cleanedRanges_applyCleanedRanges hstate₁, compactedLog]
  rcases s.getCompactionMetadata t with - | state₀ <;> rfl

/-- The keys of the extents that span intervals. -/
theorem exists_key_of_mem_collectExactIntervals {startOffset : Int} {intervals : List Interval}
    {rows : List (Key × Extent)} (h : collectExactIntervals s t startOffset intervals = .ok rows) :
    ∀ r ∈ rows, ∃ t o, r.1 = .extent t o := by
  induction intervals generalizing rows with
  | nil =>
    cases h
    exact nofun
  | cons i intervals ih =>
    obtain ⟨rows₁, h₁, h⟩ := bind_eq_ok.1 h
    obtain ⟨rows₂, h₂, h⟩ := bind_eq_ok.1 h
    cases h
    refine forall_mem_append.2 ⟨fun r hr => ?_, ih h₂⟩
    rw [collectExactInterval] at h₁
    split_ifs at h₁
    · cases h₁
      cases hr
    · obtain ⟨base, -, h₁⟩ := bind_eq_ok.1 h₁
      rcases hrange : s.getExtentRange t base i.lastOffset with - | range
      · simp [hrange] at h₁
      · simp only [hrange] at h₁
        obtain ⟨-, h₁⟩ := ite_error_eq_ok.1 h₁
        cases h₁
        exact exists_key_of_mem_getRows hr

section Loops

variable {newExtents : SortedExtents} {intervals : AList fun _ : TopicIdPartition => List Interval}
  {compactions : AList fun _ : TopicIdPartition => CompactionStateUpdate}
  {updates₁ updates₂ updates₃ : PartitionUpdates}

variable (h₁ : updateEach (replaceExtents s) intervals.entries ∅ = .ok updates₁)

include h₁

/-- The first loop leaves logs as they are. -/
theorem unchanged_of_mem_replaced (hupdate : updates₁.lookup t = some update) :
    s.Unchanged t update ∧ ∀ r ∈ update.replaced, ∃ t o, r.1 = .extent t o := by
  rcases lookup_updateEach_eq_some intervals.nodupKeys h₁ hupdate with ⟨l, -, hupdate⟩ | hupdate
  · obtain ⟨update₀, hupdate₀, hupdate⟩ := bind_eq_ok.1 hupdate
    obtain ⟨m, hm, hlog⟩ := forall_getForUpdate (fun _ h => by simp at h) (fun _ => id) hupdate₀
    obtain ⟨rows, hrows, hupdate⟩ := bind_eq_ok.1 hupdate
    cases hupdate
    exact ⟨⟨m, hm, hlog⟩, exists_key_of_mem_collectExactIntervals hrows⟩
  · simp [AList.lookup_empty] at hupdate

/-- All three loops together leave the log of a partition as it is, or compact it. -/
theorem unchanged_or_compacts
    (h₂ : updateEach (compactPartition s newExtents) compactions.entries updates₁ = .ok updates₂)
    (h₃ : updateEach (addExtents s) newExtents.entries updates₂ = .ok updates₃)
    (hupdate : updates₃.lookup t = some update) :
    s.Unchanged t update ∨ ∃ compaction, ⟨t, compaction⟩ ∈ compactions.entries ∧
      s.Compacts t compaction.newCleanedRanges update := by
  have hfirst : ∀ update ∈ updates₁.lookup t, s.Unchanged t update := fun update hupdate =>
    (unchanged_of_mem_replaced h₁ hupdate).1
  have hsecond : ∀ update ∈ updates₂.lookup t, s.Unchanged t update ∨ ∃ compaction,
      ⟨t, compaction⟩ ∈ compactions.entries ∧
        s.Compacts t compaction.newCleanedRanges update := fun update hupdate => by
    rcases lookup_updateEach_eq_some compactions.nodupKeys h₂ hupdate with
      ⟨compaction, hcompaction, hupdate⟩ | hupdate
    · exact .inr ⟨compaction, hcompaction, Unchanged.compactPartition hfirst hupdate⟩
    · exact .inl (hfirst update hupdate)
  rcases lookup_updateEach_eq_some newExtents.nodupKeys h₃ hupdate with ⟨_, -, hupdate⟩ | hupdate
  · -- neither property depends on the extents that are counted
    obtain ⟨update₀, hupdate₀, hupdate⟩ := bind_eq_ok.1 hupdate
    cases hupdate
    have hupdate := forall_getForUpdate hsecond (fun _ => .inl) hupdate₀
    exact hupdate
  · exact hsecond update hupdate

end Loops

theorem RowsInv.replaceObjects (h : s.RowsInv t) {u : ReplaceObjectsDbUpdate}
    (hcleans : s.CleansLog (.replaceObjects u now)) (hrows : u.buildRows s now = .ok rows) :
    s.Steps (s.applyRows rows) t := by
  obtain ⟨-, intervals, updates₁, updates₂, updates₃, oldObjects, newObjects, -, h₁, h₂, h₃, hrows⟩ :=
    ReplaceObjectsDbUpdate.buildRows_loops hrows
  -- the rows that are written for metadata and compactions
  have hwrites : ∀ w ∈ rows,
      (∀ t, w.key = .metadata t → ∃ update, updates₃.lookup t = some update ∧
        w = .put (.metadata t update.metadata)) ∧
      (∀ t, w.key = .compaction t → ∃ update state, updates₃.lookup t = some update ∧
        update.compactionState = some state ∧ w = .put (.compaction t state)) := by
    simp only [hrows, ReplaceObjectsDbUpdate.addedRows, objectRows, forall_mem_append,
      forall_mem_map, forall_mem_flatMap, WriteBatchRow.key, Row.key, reduceCtorEq,
      IsEmpty.forall_iff, implies_true, and_true, true_and]
    refine ⟨⟨fun k hk => ?_, fun p hp state hstate t heq => ?_⟩, fun p hp t heq => ?_⟩
    · obtain ⟨r, hr, rfl⟩ := mem_map.1 (mem_filter.1 hk).1
      obtain ⟨p, hp, hr⟩ := mem_flatMap.1 hr
      obtain ⟨_, _, hkey⟩ :=
        (unchanged_of_mem_replaced h₁ (AList.mem_lookup_iff.2 hp)).2 r hr
      simp [hkey]
    · cases heq
      exact ⟨p.2, state, AList.mem_lookup_iff.2 hp, Option.mem_toList.1 hstate, rfl⟩
    · cases heq
      exact ⟨p.2, AList.mem_lookup_iff.2 hp, rfl⟩
  rcases hupdate : updates₃.lookup t with - | update
  · refine h.applyRows_of_ne (fun w hw heq => ?_) fun w hw heq => ?_
    · obtain ⟨update, hupdate', -⟩ := (hwrites w hw).1 t heq
      cases hupdate.symm.trans hupdate'
    · obtain ⟨update, _, hupdate', -⟩ := (hwrites w hw).2 t heq
      cases hupdate.symm.trans hupdate'
  have hmem : ⟨t, update⟩ ∈ updates₃.entries := AList.mem_lookup_iff.1 hupdate
  have hm' : (s.applyRows rows).getMetadata t = some update.metadata := by
    refine getMetadata_eq_some.2 (mem_applyRows_of_unique ?_ fun w hw heq => ?_)
    · rw [hrows, map_map]
      exact mem_append_right _ (mem_map.2 ⟨_, hmem, rfl⟩)
    · obtain ⟨update', hupdate', rfl⟩ := (hwrites w hw).1 t heq
      rw [Option.some.inj (hupdate.symm.trans hupdate')]
  rcases unchanged_or_compacts h₁ h₂ h₃ hupdate with
    ⟨m, hm, hstart, hnext, hepoch, hnone⟩ |
    ⟨compaction, hcompaction, m, hm, hstart, hnext, hepoch, state, hstate, hcleaned⟩
  · have hc : (s.applyRows rows).getCompactionMetadata t = s.getCompactionMetadata t := by
      refine getCompactionMetadata_applyRows_of_ne fun w hw heq => ?_
      obtain ⟨update', state, hupdate', hstate, -⟩ := (hwrites w hw).2 t heq
      simp [← Option.some.inj (hupdate.symm.trans hupdate'), hnone] at hstate
    have hlog : (s.applyRows rows).compactedLog t = s.compactedLog t := by
      rw [compactedLog, compactedLog, metadataOrInit, metadataOrInit, hm', hm, hc]
      simp only [getD_some, hstart, hnext]
    refine ⟨.of_metadata hm' (hepoch ▸ h.epoch_nonneg m hm) fun state hstate => ?_, hlog ▸ .refl⟩
    rw [hepoch]
    exact h.pos hm (hc ▸ hstate)
  · have hc : (s.applyRows rows).getCompactionMetadata t = some state := by
      refine getCompactionMetadata_eq_some.2 (mem_applyRows_of_unique ?_ fun w hw heq => ?_)
      · rw [hrows]
        refine mem_append_left _ (mem_append_right _ (mem_append_right _ ?_))
        exact mem_flatMap.2 ⟨_, hmem, by simp [hstate]⟩
      · obtain ⟨update', state', hupdate', hstate', rfl⟩ := (hwrites w hw).2 t heq
        rw [← Option.some.inj (hupdate.symm.trans hupdate'), hstate] at hstate'
        rw [Option.some.inj hstate']
    have hlog : (s.applyRows rows).compactedLog t =
        (s.compactedLog t).clean compaction.newCleanedRanges := by
      rw [CompactedLog.clean, ← hcleaned, compactedLog, compactedLog, metadataOrInit,
        metadataOrInit, hm', hm, hc]
      simp only [getD_some, Option.map_some, hstart, hnext]
    have hpos : 0 < update.metadata.compactionEpoch := by
      have := h.epoch_nonneg m hm
      omega
    exact ⟨.of_metadata hm' hpos.le fun _ _ => hpos, hlog ▸ .clean (hcleans _ hcompaction)⟩

theorem exists_key_of_mem_allExtents {r : Key × Extent} (hr : r ∈ s.allExtents t) :
    ∃ t o, r.1 = .extent t o := by
  rw [allExtents] at hr
  rcases hrange : s.getInclusiveExtents t none none with - | range
  · simp only [hrange, not_mem_nil] at hr
  · simp only [hrange] at hr
    exact exists_key_of_mem_getRows hr

theorem RowsInv.removeTopics (h : s.RowsInv t) {topics : List TopicId}
    (hrows : removeTopicsRows topics s now = .ok rows) : s.Steps (s.applyRows rows) t := by
  obtain ⟨objects, -, hrows⟩ := bind_eq_ok.1 hrows
  replace hrows := Except.ok.inj hrows
  -- rows of these types are only removed, and only those of the topics
  have hwrites : ∀ w ∈ rows,
      (∀ t, w.key = .metadata t → t ∈ s.partitionsOf topics ∧ w = .tombstone (.metadata t)) ∧
      (∀ t, w.key = .compaction t → t ∈ s.partitionsOf topics ∧ w = .tombstone (.compaction t)) := by
    simp only [← hrows, partitionTombstones, objectRows, forall_mem_append, forall_mem_map,
      forall_mem_flatMap, forall_mem_cons, WriteBatchRow.key, Row.key, reduceCtorEq,
      IsEmpty.forall_iff, implies_true, and_true, true_and]
    refine fun t' ht' => ⟨⟨fun r hr => ?_, fun k hk => ?_⟩, ?_, ?_, by simp⟩
    · obtain ⟨_, _, hkey⟩ := exists_key_of_mem_allExtents hr
      simp [hkey]
    · obtain ⟨_, _, rfl⟩ := exists_eq_of_mem_getTermKeys hk
      simp
    · rintro _ ⟨⟩
      exact ⟨ht', rfl⟩
    · rintro _ ⟨⟩
      exact ⟨ht', rfl⟩
  by_cases ht : t ∈ s.partitionsOf topics
  · have hmem : ∀ w ∈ s.partitionTombstones t, w ∈ rows := fun w hw =>
      hrows ▸ mem_append_left _ (mem_flatMap.2 ⟨t, ht, hw⟩)
    simp only [partitionTombstones, forall_mem_append, forall_mem_cons] at hmem
    have hm' : (s.applyRows rows).getMetadata t = none :=
      getMetadata_eq_none.2 fun m => not_mem_applyRows_of_tombstone hmem.2.2.1
        fun w hw heq => ((hwrites w hw).1 t heq).2
    have hc : (s.applyRows rows).getCompactionMetadata t = none := by
      refine Option.eq_none_iff_forall_ne_some.2 fun state hstate => ?_
      exact absurd (getCompactionMetadata_eq_some.1 hstate) (not_mem_applyRows_of_tombstone
        hmem.2.1 fun w hw heq => ((hwrites w hw).2 t heq).2)
    have hlog : (s.applyRows rows).compactedLog t = .init := by
      rw [compactedLog, metadataOrInit, hm', hc]
      rfl
    refine ⟨⟨fun m hm => ?_, fun state hstate => ?_⟩, hlog ▸ .remove⟩
    · cases hm'.symm.trans hm
    · cases hc.symm.trans hstate
  · exact h.applyRows_of_ne (fun w hw heq => ht ((hwrites w hw).1 t heq).1)
      fun w hw heq => ht ((hwrites w hw).2 t heq).1

/-- Updates of objects do not write rows of partitions. -/
theorem RowsInv.objects (h : s.RowsInv t) (hrows : ∀ w ∈ rows, ∃ oid, w.key = .object oid) :
    s.Steps (s.applyRows rows) t := by
  refine h.applyRows_of_ne (fun w hw heq => ?_) fun w hw heq => ?_ <;>
    obtain ⟨oid, hkey⟩ := hrows w hw <;> exact nomatch hkey.symm.trans heq

/-- An update does to the log of every partition what is allowed there. -/
theorem RowsInv.step (h : s.RowsInv t) {u : DbUpdate} (hcleans : s.CleansLog u)
    (hstep : s.Step u s') : s.Steps s' t := by
  obtain ⟨rows, hrows, rfl⟩ := step_eq_ok hstep
  cases u with
  | addObjects u now =>
    rcases hbuild : u.buildRows s now with e | result <;>
      rw [DbUpdate.buildRows, hbuild] at hrows
    · cases hrows
    · exact Except.ok.inj hrows ▸ h.addObjects hcleans hbuild
  | replaceObjects u now => exact h.replaceObjects hcleans hrows
  | setStartOffset u now => exact h.setStartOffset hrows
  | removeTopics topics now => exact h.removeTopics hrows
  | removeObjects | preregisterObjects | expirePreregisteredObjects =>
    exact h.objects (key_of_onlyObjects hrows trivial)

/-- In every state that is reached, the cleaned ranges of a partition touch its log. -/
theorem sound_of_run {updates : List DbUpdate}
    (h : Run (fun (s : Store) u s' => s.CleansLog u ∧ s.Step u s') OrderedStore.empty updates s) :
    ∀ t, (s.compactedLog t).Sound := by
  have hinv : ∀ t, s.RowsInv t ∧ (s.compactedLog t).Sound :=
    h.invariant (P := fun s : Store => ∀ t, s.RowsInv t ∧ (s.compactedLog t).Sound)
      (fun hs hstep t => by
        obtain ⟨hinv, hlog⟩ := (hs t).1.step hstep.1 hstep.2
        exact ⟨hinv, (hs t).2.step hlog⟩)
      fun t => ⟨⟨nofun, nofun⟩, CompactedLog.sound_init⟩
  exact fun t => (hinv t).2

/-! ## What is returned -/

/-- The extents of a partition can be read. -/
theorem exists_readAllExtents_eq (s : Store) (t : TopicIdPartition) :
    ∃ extents, s.readAllExtents t = .ok extents := by
  rw [readAllExtents]
  rcases hrange : s.getInclusiveExtents t none none with - | range
  · exact ⟨[], rfl⟩
  simp only [getInclusiveExtents, findFirstExtent, findLastExtent, OrderedStore.seekBefore_eq,
    Option.bind_eq_bind, Option.bind_eq_some_iff, Option.guard_eq_some'] at hrange
  obtain ⟨first, hfirst, final, hfinal, -, hle, hrange⟩ := hrange
  cases hrange
  have hfirst := (OrderedStore.seek_eq_some.1 (isAtExtent_eq_some.1 hfirst)).1
  have hfinal := (OrderedStore.prev_eq_some.1 (isAtExtent_eq_some.1 hfinal)).1
  dsimp only
  rw [getRows_eq (mem_extents.2 hfirst) (mem_extents.2 hfinal) (Key.extent_le_extent.1 hle)]
  exact ⟨_, rfl⟩

/-- What is returned for a partition. -/
theorem exists_getCompactionInfo_eq {m : MetadataRowValue} (hm : s.getMetadata t = some m)
    (upperBound : Int) : ∃ reply, s.getCompactionInfo t upperBound = .ok reply ∧
      reply.dirtyRanges = (compactionOffsets m.startOffset m.nextOffset
        (s.getCompactionMetadata t) upperBound).dirtyRanges := by
  simp only [getCompactionInfo, hm]
  split_ifs with hle
  · refine ⟨_, rfl, ?_⟩
    rw [compactionOffsets.eq_def, if_pos hle]
  · obtain ⟨extents, hextents⟩ := s.exists_readAllExtents_eq t
    exact ⟨_, by rw [hextents]; rfl, rfl⟩

end Updates

end Store

/-- Executing updates that meet a condition. -/
theorem Store.exists_run_of {P : Store → DbUpdate → Prop} [∀ s, DecidablePred (P s)] {α : Type}
    {f : Store → α} {a : α} {l : List DbUpdate}
    (h : (l.foldlM (fun s u => if P s u then update s u else none) OrderedStore.empty).map f =
      some a) :
    ∃ s, Run (fun s u s' => P s u ∧ Step s u s') OrderedStore.empty l s ∧ f s = a :=
  Run.exists_of_foldlM h

/-- In all runs in which the ranges cleaned by a compaction touch the log of their partition,
    the dirty ranges of a partition have exactly the offsets of its log that are not cleaned. -/
theorem mem_dirtyRanges_of_run (t : TopicIdPartition) (upperBound : Int) :
    (∀ updates s, Run (fun (s : State) u s' => s.CleansLog u ∧ s.Step u s') .empty updates s →
      ∀ p, s.partitionState t = some p →
        (∃ offsets, s.getCompactionOffsets t upperBound = .ok offsets ∧ ∀ o,
          o ∈ offsets.dirtyRanges ↔
            p.startOffset ≤ o ∧ o < p.nextOffset ∧ ∀ state ∈ p.compactionState,
              o ∉ state.cleanedRanges) ∧
        ∃ info, s.getCompactionInfo t upperBound = .ok info ∧ ∀ o,
          o ∈ info.offsetsResponse.dirtyRanges ↔
            p.startOffset ≤ o ∧ o < p.nextOffset ∧ ∀ state ∈ p.compactionState,
              o ∉ state.cleanedRanges) ∧
    ∀ updates s, Run (fun (s : Store) u s' => s.CleansLog u ∧ s.Step u s') .empty updates s →
      ∀ m, s.getMetadata t = some m →
        ∃ reply, s.getCompactionInfo t upperBound = .ok reply ∧ ∀ o,
          o ∈ reply.dirtyRanges ↔
            m.startOffset ≤ o ∧ o < m.nextOffset ∧ ∀ state ∈ s.getCompactionMetadata t,
              o ∉ state.cleanedRanges := by
  refine ⟨fun updates s hrun p hp => ?_, fun updates s hrun m hm => ?_⟩
  · have hsound := State.sound_of_run hrun t
    rw [State.compactedLog, State.partition, hp] at hsound
    have hdirty := fun o => CompactedLog.Sound.mem_compactionOffsets hsound upperBound (o := o)
    obtain ⟨info, hinfo, hoffsets⟩ := State.exists_getCompactionInfo_eq hp upperBound
    refine ⟨⟨_, State.getCompactionOffsets_eq hp upperBound, hdirty⟩, info, hinfo, fun o => ?_⟩
    rw [hoffsets]
    exact hdirty o
  · have hsound := Store.sound_of_run hrun t
    rw [Store.compactedLog, Store.metadataOrInit, hm] at hsound
    obtain ⟨reply, hreply, hranges⟩ := Store.exists_getCompactionInfo_eq hm upperBound
    refine ⟨reply, hreply, fun o => ?_⟩
    rw [hranges]
    exact CompactedLog.Sound.mem_compactionOffsets hsound upperBound

/-- A compaction that cleans the log from its start on. -/
def cleaning (baseOffset lastOffset : Int) : CompactionStateUpdate :=
  ⟨[{ baseOffset, lastOffset }], .empty, 0, 0⟩

/-- The log is cut and then compacted. -/
theorem mem_dirtyRanges_of_run_compact :
    let t : TopicIdPartition := ⟨0, 0⟩
    (let updates : List StmUpdate :=
        [.preregisterObjects [1, 2] 0,
          .addObjects ⟨[State.objectOf 1 t 0 9 10], AList.singleton t [⟨0, 0⟩]⟩ 0,
          .setStartOffset ⟨t, 3⟩,
          .replaceObjects ⟨[State.objectOf 2 t 0 9 5], AList.singleton t (cleaning 0 6)⟩ 0]
      ∃ s, Run (fun (s : State) u s' => s.CleansLog u ∧ s.Step u s') .empty updates s ∧
        ∃ offsets, s.getCompactionOffsets t 0 = .ok offsets ∧ 7 ∈ offsets.dirtyRanges) ∧
    (let updates : List DbUpdate :=
        [.preregisterObjects [1, 2] 0,
          .addObjects ⟨[State.objectOf 1 t 0 9 10], AList.singleton t [⟨0, 0⟩]⟩ 0,
          .setStartOffset ⟨t, 3⟩ 0,
          .replaceObjects ⟨[State.objectOf 2 t 0 9 5], AList.singleton t (cleaning 0 6)⟩ 0]
      ∃ s, Run (fun (s : Store) u s' => s.CleansLog u ∧ s.Step u s') .empty updates s ∧
        ∃ reply, s.getCompactionInfo t 0 = .ok reply ∧ 7 ∈ reply.dirtyRanges) := by
  intro t
  refine ⟨?_, ?_⟩
  · intro updates
    obtain ⟨s, hrun, hs⟩ := State.exists_run (l := updates) (P := State.CleansLog)
      (f := fun s => ((s.partitionState t).map fun p => (p.startOffset, p.nextOffset),
        (s.partitionState t).bind fun p => p.compactionState.map (·.cleanedRanges.intervals)))
      (a := (some ((3 : Int), (10 : Int)), some [((0 : Int), (7 : Int))])) (by decide)
    obtain ⟨hp, hstate⟩ := Prod.mk.inj hs
    obtain ⟨p, hp, hoffsets⟩ := map_eq_some_iff.1 hp
    obtain ⟨hstart, hnext⟩ := Prod.mk.inj hoffsets
    rw [hp, Option.bind_some] at hstate
    obtain ⟨state, hstate, hcleaned⟩ := map_eq_some_iff.1 hstate
    obtain ⟨⟨offsets, hoffsets, hdirty⟩, -⟩ := (mem_dirtyRanges_of_run t 0).1 updates s hrun p hp
    refine ⟨s, hrun, offsets, hoffsets, (hdirty 7).2 ⟨by omega, by omega, ?_⟩⟩
    simp [hstate, mem_def, hcleaned]
  · intro updates
    obtain ⟨s, hrun, hs⟩ := Store.exists_run_of (l := updates) (P := Store.CleansLog)
      (f := fun s : Store => (s.getMetadata t, (s.getCompactionMetadata t).map
        (·.cleanedRanges.intervals)))
      (a := (some ⟨3, 10, 1, 5, 1⟩, some [((0 : Int), (7 : Int))])) (by decide)
    obtain ⟨hm, hstate⟩ := Prod.mk.inj hs
    obtain ⟨state, hstate, hcleaned⟩ := map_eq_some_iff.1 hstate
    obtain ⟨reply, hreply, hdirty⟩ := (mem_dirtyRanges_of_run t 0).2 updates s hrun _ hm
    refine ⟨s, hrun, reply, hreply, (hdirty 7).2 ⟨by decide, by decide, ?_⟩⟩
    simp [hstate, mem_def, hcleaned]

/-- The log is cut after a compaction was planned. The range it then cleans is below the
    start of the log, and offsets below the start are returned as dirty. -/
theorem exists_dirty_below_start :
    let t : TopicIdPartition := ⟨0, 0⟩
    (let updates : List StmUpdate :=
        [.preregisterObjects [1, 2] 0,
          .addObjects ⟨[State.objectOf 1 t 0 9 10], AList.singleton t [⟨0, 0⟩]⟩ 0,
          .setStartOffset ⟨t, 7⟩,
          .replaceObjects ⟨[State.objectOf 2 t 0 9 5], AList.singleton t (cleaning 0 4)⟩ 0]
      ∃ s p offsets, Run (fun (s : State) u s' => s.Step u s') .empty updates s ∧
        s.partitionState t = some p ∧ s.getCompactionOffsets t 0 = .ok offsets ∧
        5 ∈ offsets.dirtyRanges ∧ 5 < p.startOffset) ∧
    (let updates : List DbUpdate :=
        [.preregisterObjects [1, 2] 0,
          .addObjects ⟨[State.objectOf 1 t 0 9 10], AList.singleton t [⟨0, 0⟩]⟩ 0,
          .setStartOffset ⟨t, 7⟩ 0,
          .replaceObjects ⟨[State.objectOf 2 t 0 9 5], AList.singleton t (cleaning 0 4)⟩ 0]
      ∃ s m reply, Run (fun (s : Store) u s' => s.Step u s') .empty updates s ∧
        s.getMetadata t = some m ∧ s.getCompactionInfo t 0 = .ok reply ∧
        5 ∈ reply.dirtyRanges ∧ 5 < m.startOffset) := by
  intro t
  refine ⟨?_, ?_⟩
  · intro updates
    obtain ⟨s, hrun, hs⟩ := State.exists_run (l := updates) (P := fun _ _ => True)
      (f := fun s => ((s.partitionState t).map (·.startOffset),
        (s.getCompactionOffsets t 0).toOption.map (·.dirtyRanges.intervals)))
      (a := (some (7 : Int), some [((5 : Int), (10 : Int))])) (by decide)
    obtain ⟨hp, hoffsets⟩ := Prod.mk.inj hs
    obtain ⟨p, hp, hstart⟩ := map_eq_some_iff.1 hp
    obtain ⟨offsets, hoffsets, hdirty⟩ := map_eq_some_iff.1 hoffsets
    refine ⟨s, p, offsets, hrun.imp And.right, hp, Except.toOption_eq_some.1 hoffsets, ?_, by omega⟩
    simp [mem_def, hdirty]
  · intro updates
    obtain ⟨s, hrun, hs⟩ := Store.exists_run_of (l := updates) (P := fun _ _ => True)
      (f := fun s : Store => ((s.getMetadata t).map (·.startOffset),
        (s.getCompactionInfo t 0).toOption.map (·.dirtyRanges.intervals)))
      (a := (some (7 : Int), some [((5 : Int), (10 : Int))])) (by decide)
    obtain ⟨hm, hreply⟩ := Prod.mk.inj hs
    obtain ⟨m, hm, hstart⟩ := map_eq_some_iff.1 hm
    obtain ⟨reply, hreply, hdirty⟩ := map_eq_some_iff.1 hreply
    refine ⟨s, m, reply, hrun.imp And.right, hm, Except.toOption_eq_some.1 hreply, ?_, by omega⟩
    simp [mem_def, hdirty]

end Redpanda.LevelOne.Lsm
