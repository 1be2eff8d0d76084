import Redpanda.LevelOne.Lsm.Removal

/-!
# Replacing extents

The extents that are replaced by those of a request span the same offsets from the
start of the log on (`collectExactIntervals_spec`). The loops over the partitions of the
request compute the metadata from what is replaced and what is added
(`ReplaceObjectsDbUpdate.buildRows_eq_ok`), so that the extents tile the log afterwards
as well.
-/

namespace Redpanda.LevelOne.Lsm

open Lib Model Lib.Except List

variable {s : Store} {t : TopicIdPartition} {m : MetadataRowValue}

/-- Extents of a partition that contain the offsets with a property, from the start of
    its log on. -/
structure Spanning (s : Store) (t : TopicIdPartition) (start : Int) (contains : Int → Prop)
    (old : List Extent) : Prop where
  subset : old ⊆ s.extents t
  nodup : old.Nodup
  contains_iff : ∀ o, start ≤ o → ((∃ e ∈ old, e.Contains o) ↔ contains o)

section

variable (h : Tracks t m (s.extents t)) {rows : List (Key × Extent)}

include h

/-- The extents between two of them span what is between their ends. -/
theorem spanning_between {first final : Extent} (hfirst : first ∈ s.extents t)
    (hfinal : final ∈ s.extents t) :
    Spanning s t m.startOffset (fun o => first.baseOffset ≤ o ∧ o ≤ final.lastOffset)
      ((s.extents t).filter fun e =>
        first.baseOffset ≤ e.baseOffset ∧ e.baseOffset ≤ final.baseOffset) where
  subset := filter_subset_self _
  nodup := (s.extents_nodup t).filter _
  contains_iff o _ := by
    rw [← h.tiles.covers_between hfirst hfinal o]
    simp only [mem_filter, decide_eq_true_eq, and_assoc]
    rfl

/-- The base is the one of the interval, or below the start of the log like that. -/
theorem intervalBase_spec {i : Interval} (hbase : 0 ≤ i.baseOffset)
    (hle : i.baseOffset ≤ i.lastOffset) (hlast : m.startOffset ≤ i.lastOffset) {base : Int}
    (hfound : intervalBase s t m.startOffset i = .ok base) :
    0 ≤ base ∧ base ≤ i.lastOffset ∧ ∀ o, m.startOffset ≤ o → (base ≤ o ↔ i.baseOffset ≤ o) := by
  rw [intervalBase] at hfound
  by_cases hbelow : i.baseOffset < m.startOffset
  · rw [if_pos hbelow] at hfound
    rcases hfirst : s.getExtentGe t 0 with - | first
    · simp [hfirst] at hfound
    rw [hfirst] at hfound
    cases hfound
    obtain ⟨hmem, hmin⟩ := Store.getExtentGe_zero h.base_nonneg hfirst
    -- the first extent begins at or below the start of the log
    have hstart := h.tiles.start_le_last first hmem
    obtain ⟨x, hx, hxo⟩ := h.tiles.covers m.startOffset le_rfl
      (hstart.trans_lt (h.tiles.last_lt_stop first hmem))
    have := hmin x hx
    exact ⟨h.base_nonneg first hmem, by omega, fun o ho => by omega⟩
  · rw [if_neg hbelow] at hfound
    cases hfound
    exact ⟨hbase, hle, fun o _ => Iff.rfl⟩

/-- The extents collected for an interval span it. -/
theorem collectExactInterval_spec {i : Interval} (hbase : 0 ≤ i.baseOffset)
    (hle : i.baseOffset ≤ i.lastOffset) (hmax : i.lastOffset < Offset.max)
    (hrows : collectExactInterval s t m.startOffset i = .ok rows) :
    ∃ old, rows = Store.withKeys t old ∧ Spanning s t m.startOffset i.Contains old := by
  rw [collectExactInterval] at hrows
  by_cases hbelow : i.lastOffset < m.startOffset
  · rw [if_pos hbelow] at hrows
    refine ⟨[], (Except.ok.inj hrows).symm, nil_subset _, nodup_nil, fun o ho => ?_⟩
    simp only [not_mem_nil, false_and, exists_false, false_iff]
    exact fun hcontains => (hcontains.2.trans_lt hbelow).not_ge ho
  rw [if_neg hbelow] at hrows
  obtain ⟨base, hfound, hrows⟩ := bind_eq_ok.1 hrows
  rcases hrange : s.getExtentRange t base i.lastOffset with - | range
  · simp [hrange] at hrows
  obtain ⟨hnonneg, hlast, hiff⟩ := intervalBase_spec h hbase hle (le_of_not_gt hbelow) hfound
  obtain ⟨first, hfirst, final, hfinal, rfl, hlast, hle', rfl⟩ :=
    Store.getExtentRange_eq_some hnonneg hlast hmax hrange
  simp only [hrange, Store.getRows_eq hfirst hfinal hle', Bool.false_eq_true, if_false] at hrows
  have hspan := spanning_between h hfirst hfinal
  refine ⟨_, (Except.ok.inj hrows).symm, hspan.subset, hspan.nodup, fun o ho => ?_⟩
  rw [hspan.contains_iff o ho, hiff o ho, hlast]
  rfl

/-- The extents collected for intervals that are apart span them. -/
theorem collectExactIntervals_spec {intervals : List Interval}
    (hrange : ∀ i ∈ intervals, 0 ≤ i.baseOffset ∧ i.baseOffset ≤ i.lastOffset ∧
      i.lastOffset < Offset.max) (hpairwise : intervals.Pairwise (·.lastOffset < ·.baseOffset))
    (hrows : collectExactIntervals s t m.startOffset intervals = .ok rows) :
    ∃ old, rows = Store.withKeys t old ∧
      Spanning s t m.startOffset (fun o => ∃ i ∈ intervals, i.Contains o) old := by
  induction intervals generalizing rows with
  | nil =>
    refine ⟨[], (Except.ok.inj hrows).symm, nil_subset _, nodup_nil, fun o _ => ?_⟩
    simp
  | cons i intervals ih =>
    obtain ⟨first, hfirst, hrows⟩ := bind_eq_ok.1 hrows
    obtain ⟨others, hothers, hrows⟩ := bind_eq_ok.1 hrows
    cases hrows
    rw [forall_mem_cons] at hrange
    rw [pairwise_cons] at hpairwise
    obtain ⟨hbase, hle, hmax⟩ := hrange.1
    obtain ⟨old, rfl, hold⟩ := collectExactInterval_spec h hbase hle hmax hfirst
    obtain ⟨old', rfl, hold'⟩ := ih hrange.2 hpairwise.2 hothers
    refine ⟨old ++ old', by simp [Store.withKeys], append_subset.2 ⟨hold.subset, hold'.subset⟩,
      nodup_append.2 ⟨hold.nodup, hold'.nodup, ?_⟩, fun o ho => ?_⟩
    · -- the last offset of a common extent would be in two of the intervals
      rintro e he e' he' rfl
      have hlast := h.tiles.start_le_last e (hold.subset he)
      have hcontains : e.Contains e.lastOffset := ⟨h.tiles.base_le_last e (hold.subset he), le_rfl⟩
      have hi := (hold.contains_iff _ hlast).1 ⟨e, he, hcontains⟩
      obtain ⟨i', hi', hcontains'⟩ := (hold'.contains_iff _ hlast).1 ⟨e, he', hcontains⟩
      have := hpairwise.1 i' hi'
      exact absurd (hi.2.trans_lt this) hcontains'.1.not_gt
    · simp only [mem_append, or_and_right, exists_or, mem_cons, exists_eq_left,
        hold.contains_iff o ho, hold'.contains_iff o ho]

end

/-! ## The loops over partitions -/

/-- What a request does to a partition: `old` extents are replaced by those of the `new`
    ones that do not end below the start of the log. -/
structure Replaces (s : Store) (t : TopicIdPartition) (m : MetadataRowValue)
    (old new : List Extent) (update : PartitionUpdate) : Prop where
  getMetadata : s.getMetadata t = some m
  spanning : Spanning s t m.startOffset (fun o => ∃ e ∈ new, e.Contains o) old
  metadata : ∃ epoch, update.metadata = { m with
    compactionEpoch := epoch
    size := m.size - dataSize old + dataSize (liveExtents m.startOffset new)
    numExtents := m.numExtents - old.length + (liveExtents m.startOffset new).length }

variable {new : List Extent} {update : PartitionUpdate} {newExtents : SortedExtents}
  {update' : PartitionUpdate}

/-- The first loop takes out the extents that span those of the request. -/
theorem replaceExtents_eq_ok (h : s.Inv) {intervals : List Interval}
    (hintervals : IntervalsOf intervals new)
    (hupdate : replaceExtents s t intervals none = .ok update) :
    ∃ m old, s.getMetadata t = some m ∧
      Spanning s t m.startOffset (fun o => ∃ e ∈ new, e.Contains o) old ∧
      update.replaced = Store.withKeys t old ∧
      update.metadata = { m with size := m.size - dataSize old
                                 numExtents := m.numExtents - old.length } := by
  obtain ⟨first, hfirst, hupdate⟩ := bind_eq_ok.1 hupdate
  rw [getForUpdate] at hfirst
  rcases hm : s.getMetadata t with - | m
  · simp [hm] at hfirst
  rw [hm] at hfirst
  cases hfirst
  obtain ⟨rows, hrows, hupdate⟩ := bind_eq_ok.1 hupdate
  cases hupdate
  have hrange : ∀ i ∈ intervals, 0 ≤ i.baseOffset ∧ i.baseOffset ≤ i.lastOffset ∧
      i.lastOffset < Offset.max := fun i hi =>
    ⟨hintervals.base_nonneg i hi, hintervals.base_le_last i hi, hintervals.last_lt_max i hi⟩
  obtain ⟨old, rfl, hold⟩ :=
    collectExactIntervals_spec (h.tracks hm) hrange hintervals.pairwise hrows
  refine ⟨m, old, rfl, ⟨hold.subset, hold.nodup, fun o ho => ?_⟩, rfl, ?_⟩
  · rw [hold.contains_iff o ho, hintervals.contains_iff]
  · simp [Store.withKeys, dataSize, Function.comp_def]

/-- The second loop changes the epoch. -/
theorem compactPartition_eq_ok {compaction : CompactionStateUpdate}
    (hupdate : compactPartition s newExtents t compaction (some update) = .ok update') :
    ∃ epoch, update'.metadata = { update.metadata with compactionEpoch := epoch } := by
  obtain ⟨_, hsome, hupdate⟩ := bind_eq_ok.1 hupdate
  cases hsome
  obtain ⟨state, -, hupdate⟩ := bind_eq_ok.1 hupdate
  obtain ⟨_, -, hupdate⟩ := bind_eq_ok.1 hupdate
  cases hupdate
  exact ⟨_, rfl⟩

/-- The third loop counts the new extents. -/
theorem addExtents_eq_ok (hupdate : addExtents s t new (some update) = .ok update') :
    update'.metadata = { update.metadata with
      size := update.metadata.size + dataSize (liveExtents update.metadata.startOffset new)
      numExtents := update.metadata.numExtents
        + (liveExtents update.metadata.startOffset new).length } := by
  obtain ⟨_, hsome, hupdate⟩ := bind_eq_ok.1 hupdate
  cases hsome
  cases hupdate
  rfl

/-- The intervals computed for a partition are those of its extents. -/
theorem lookup_contiguousIntervalsForExtents
    {intervals : AList fun _ : TopicIdPartition => List Interval}
    (hintervals : contiguousIntervalsForExtents newExtents = .ok intervals)
    (hp : ⟨t, new⟩ ∈ newExtents.entries) (hnew : ∀ e ∈ new, e.InRange) :
    ∃ l, intervals.lookup t = some l ∧ IntervalsOf l new := by
  obtain ⟨l, hl, hlookup⟩ := lookup_updateEach newExtents.nodupKeys hintervals hp
  refine ⟨l, hlookup, contiguousIntervals_spec (t := t) hnew ?_⟩
  rcases hc : contiguousIntervals t new with e | l'
  · rw [hc] at hl
    exact nomatch hl
  · rw [hc] at hl
    exact congrArg Except.ok (Except.ok.inj hl)

section Loops

variable {intervals : AList fun _ : TopicIdPartition => List Interval}
  {compactions : AList fun _ : TopicIdPartition => CompactionStateUpdate}
  {updates₁ updates₂ updates₃ : PartitionUpdates}

section

variable (hintervals : contiguousIntervalsForExtents newExtents = .ok intervals)
  (h₁ : updateEach (replaceExtents s) intervals.entries ∅ = .ok updates₁)
  (h₂ : updateEach (compactPartition s newExtents) compactions.entries updates₁ = .ok updates₂)
  (h₃ : updateEach (addExtents s) newExtents.entries updates₂ = .ok updates₃)

include hintervals h₁ h₂ h₃

/-- The loops change the partitions of the request. -/
theorem replaces_of_mem (h : s.Inv) {new : List Extent} (hp : ⟨t, new⟩ ∈ newExtents.entries)
    (hnew : ∀ e ∈ new, e.InRange) :
    ∃ m old update₁ update₃, updates₁.lookup t = some update₁ ∧
      update₁.replaced = Store.withKeys t old ∧ updates₃.lookup t = some update₃ ∧
      Replaces s t m old new update₃ := by
  obtain ⟨l, hl, hspec⟩ := lookup_contiguousIntervalsForExtents hintervals hp hnew
  obtain ⟨update₁, hupdate₁, hlookup₁⟩ :=
    lookup_updateEach intervals.nodupKeys h₁ (AList.mem_lookup_iff.1 hl)
  rw [AList.lookup_empty] at hupdate₁
  obtain ⟨m, old, hm, hspan, hreplaced, hmetadata₁⟩ := replaceExtents_eq_ok h hspec hupdate₁
  -- a partition that is compacted as well gets a new epoch
  obtain ⟨update₂, hlookup₂, epoch, hmetadata₂⟩ : ∃ update₂, updates₂.lookup t = some update₂ ∧
      ∃ epoch, update₂.metadata = { update₁.metadata with compactionEpoch := epoch } := by
    by_cases ht : t ∈ compactions.entries.keys
    · obtain ⟨compaction, hcompaction⟩ := exists_of_mem_keys ht
      obtain ⟨update₂, hupdate₂, hlookup₂⟩ :=
        lookup_updateEach compactions.nodupKeys h₂ hcompaction
      rw [hlookup₁] at hupdate₂
      exact ⟨update₂, hlookup₂, compactPartition_eq_ok hupdate₂⟩
    · exact ⟨update₁, (lookup_updateEach_of_not_mem h₂ ht).trans hlookup₁, _, rfl⟩
  obtain ⟨update₃, hupdate₃, hlookup₃⟩ := lookup_updateEach newExtents.nodupKeys h₃ hp
  rw [hlookup₂] at hupdate₃
  refine ⟨m, old, update₁, update₃, hlookup₁, hreplaced, hlookup₃, hm, hspan, epoch, ?_⟩
  rw [addExtents_eq_ok hupdate₃, hmetadata₂, hmetadata₁]

/-- The loops change no other partitions. -/
theorem lookup_eq_none_of_not_mem (hcompactions : ∀ t ∈ compactions, t ∈ newExtents)
    (ht : t ∉ newExtents) : updates₁.lookup t = none ∧ updates₃.lookup t = none := by
  have hnone : t ∉ intervals := by
    rw [← AList.lookup_eq_none, lookup_updateEach_of_not_mem hintervals ht, AList.lookup_empty]
  have hlookup₁ : updates₁.lookup t = none := by
    rw [lookup_updateEach_of_not_mem h₁ hnone, AList.lookup_empty]
  have hcompaction : t ∉ compactions := fun hmem => ht (hcompactions t hmem)
  refine ⟨hlookup₁, ?_⟩
  rw [lookup_updateEach_of_not_mem h₃ ht, lookup_updateEach_of_not_mem h₂ hcompaction, hlookup₁]

end

theorem withKeys_injective (t : TopicIdPartition) : Function.Injective (Store.withKeys t) :=
  fun _ _ h => map_injective_iff.2 (fun _ _ h => (Prod.mk.inj h).2) h

/-- The keys of what is replaced. -/
theorem mem_replaced (hreplaced : ∀ p ∈ updates₁.entries, ∃ old,
      p.2.replaced = Store.withKeys p.1 old) {k : Key} :
    k ∈ (updates₁.entries.flatMap (·.2.replaced)).map (·.1) ↔
      ∃ p ∈ updates₁.entries, ∃ old, p.2.replaced = Store.withKeys p.1 old ∧
        ∃ e ∈ old, .extent p.1 e.baseOffset = k := by
  rw [map_flatMap, mem_flatMap]
  refine exists_congr fun p => and_congr_right fun hp => ?_
  obtain ⟨old, hold⟩ := hreplaced p hp
  rw [hold, Store.mem_map_fst_withKeys]
  constructor
  · exact fun h => ⟨old, rfl, h⟩
  · rintro ⟨old', heq, h⟩
    rwa [← Store.mem_map_fst_withKeys, heq, Store.mem_map_fst_withKeys]

end Loops

namespace ReplaceObjectsDbUpdate

variable {u : ReplaceObjectsDbUpdate} {rows : List WriteBatchRow}

/-- The extents of an accepted request do not end before they begin. -/
theorem inRange_of_validateInputs (hvalid : u.validateInputs = .ok ())
    (hrange : ∀ o ∈ u.newObjects, o.InRange) {p : SortedExtents.Entry}
    (hp : p ∈ (collectExtents u.newObjects).entries) : ∀ e ∈ p.2, e.InRange := by
  rw [validateInputs, ite_error_eq_ok] at hvalid
  obtain ⟨⟨⟩, hinverted, -⟩ := bind_eq_ok.1 hvalid.2
  intro e he
  have hle := forM_eq_ok.1 (forM_eq_ok.1 hinverted p hp) e he
  rw [ite_error_eq_ok, not_lt] at hle
  obtain ⟨-, hbase, hmax⟩ := inRange_of_mem hrange hp he
  exact ⟨hbase, hle.1, hmax⟩

/-- Only partitions with new extents can be compacted. -/
theorem mem_of_mem_compactionUpdates (hvalid : u.validateInputs = .ok ()) :
    ∀ t ∈ u.compactionUpdates, t ∈ collectExtents u.newObjects := by
  rw [validateInputs, ite_error_eq_ok] at hvalid
  obtain ⟨⟨⟩, -, hvalid⟩ := bind_eq_ok.1 hvalid.2
  obtain ⟨_, -, hvalid⟩ := bind_eq_ok.1 hvalid
  intro t ht
  obtain ⟨compaction, hcompaction⟩ := exists_of_mem_keys ht
  have hcheck := forM_eq_ok.1 hvalid _ hcompaction
  by_contra hnone
  simp only [checkCleanedRanges, AList.lookup_eq_none.2 hnone, reduceCtorEq] at hcheck

/-- The new extents that do not end below the start of the log. -/
def addedExtents (u : ReplaceObjectsDbUpdate) (updates : PartitionUpdates) :
    List (Sigma fun _ : TopicIdPartition => List Extent) :=
  (collectExtents u.newObjects).entries.map fun p =>
    ⟨p.1, liveExtents (updates.startOffset p.1) p.2⟩

theorem keys_addedExtents (u : ReplaceObjectsDbUpdate) (updates : PartitionUpdates) :
    (u.addedExtents updates).keys = (collectExtents u.newObjects).keys := by
  simp [addedExtents, keys, AList.keys, Function.comp_def]

/-- The extents added to a partition of the request. -/
theorem mem_addedExtents {updates : PartitionUpdates} {new : List Extent}
    (hp : ⟨t, new⟩ ∈ (collectExtents u.newObjects).entries) {added : List Extent} :
    ⟨t, added⟩ ∈ u.addedExtents updates ↔ added = liveExtents (updates.startOffset t) new := by
  simp only [addedExtents, mem_map]
  constructor
  · rintro ⟨⟨t', new'⟩, hq, heq⟩
    obtain ⟨rfl, hadded⟩ := Sigma.mk.inj heq
    rw [← eq_of_heq hadded, (collectExtents u.newObjects).nodupKeys.eq_of_mk_mem hq hp]
  · rintro rfl
    exact ⟨_, hp, rfl⟩

/-- The rows of these extents. -/
def addedRows (u : ReplaceObjectsDbUpdate) (updates : PartitionUpdates) : List Row :=
  (u.addedExtents updates).flatMap fun p => p.2.map (Row.extent p.1)

/-- The loops of an accepted request, and the rows written after them. -/
theorem buildRows_loops {now : Int} (hrows : u.buildRows s now = .ok rows) :
    u.validateInputs = .ok () ∧
      ∃ (intervals : AList fun _ : TopicIdPartition => List Interval)
        (updates₁ updates₂ updates₃ : PartitionUpdates)
        (oldObjects newObjects : List (ObjectId × ObjectEntry)),
      contiguousIntervalsForExtents (collectExtents u.newObjects) = .ok intervals ∧
      updateEach (replaceExtents s) intervals.entries ∅ = .ok updates₁ ∧
      updateEach (compactPartition s (collectExtents u.newObjects)) u.compactionUpdates.entries
        updates₁ = .ok updates₂ ∧
      updateEach (addExtents s) (collectExtents u.newObjects).entries updates₂ = .ok updates₃ ∧
      rows = (u.addedRows updates₃).map .put
        ++ (((updates₁.entries.flatMap (·.2.replaced)).map (·.1)).filter
          (· ∉ (u.addedRows updates₃).map Row.key)).map .tombstone
        ++ (objectRows oldObjects ++ objectRows newObjects
          ++ updates₃.entries.flatMap fun p =>
            p.2.compactionState.toList.map fun state => .put (.compaction p.1 state))
        ++ (updates₃.entries.map fun p => Row.metadata p.1 p.2.metadata).map .put := by
  obtain ⟨⟨⟩, hvalid, hrows⟩ := bind_eq_ok.1 hrows
  obtain ⟨newObjects, -, hrows⟩ := bind_eq_ok.1 hrows
  obtain ⟨intervals, hintervals, hrows⟩ := bind_eq_ok.1 hrows
  obtain ⟨updates₁, h₁, hrows⟩ := bind_eq_ok.1 hrows
  obtain ⟨oldObjects, -, hrows⟩ := bind_eq_ok.1 hrows
  obtain ⟨updates₂, h₂, hrows⟩ := bind_eq_ok.1 hrows
  obtain ⟨updates₃, h₃, hrows⟩ := bind_eq_ok.1 hrows
  rw [ite_error_eq_ok] at hrows
  obtain ⟨-, hrows⟩ := hrows
  generalize foldl removeExtent newObjects _ = objects at hrows
  cases hrows
  refine ⟨hvalid, intervals, updates₁, updates₂, updates₃, oldObjects,
    objects.entries.map fun p => (p.1, p.2), hintervals, h₁, h₂, h₃, ?_⟩
  simp only [addedRows, addedExtents, flatMap_map, append_assoc, map_map]
  rfl

/-- The rows written for an accepted request. -/
theorem buildRows_eq_ok (h : s.Inv) (hrange : ∀ o ∈ u.newObjects, o.InRange) {now : Int}
    (hrows : u.buildRows s now = .ok rows) :
    ∃ (updates : PartitionUpdates) (replaced : List Key) (aux : List WriteBatchRow),
      Store.Auxiliary aux ∧
      rows = (u.addedRows updates).map .put
        ++ (replaced.filter (· ∉ (u.addedRows updates).map Row.key)).map .tombstone
        ++ aux ++ (updates.entries.map fun p => Row.metadata p.1 p.2.metadata).map .put ∧
      (∀ t ∉ collectExtents u.newObjects, t ∉ updates) ∧
      (∀ p ∈ (collectExtents u.newObjects).entries, (∀ e ∈ p.2, e.InRange) ∧
        p.2.Pairwise (·.lastOffset < ·.baseOffset) ∧
        ∃ m old update, updates.lookup p.1 = some update ∧ Replaces s p.1 m old p.2 update ∧
          ∀ o, .extent p.1 o ∈ replaced ↔ ∃ e ∈ old, e.baseOffset = o) ∧
      ∀ k ∈ replaced, ∃ t o, k = .extent t o ∧ t ∈ collectExtents u.newObjects := by
  obtain ⟨hvalid, intervals, updates₁, updates₂, updates₃, oldObjects, objects, hintervals, h₁, h₂,
    h₃, rfl⟩ := buildRows_loops hrows
  have hnew := fun p hp => inRange_of_validateInputs hvalid hrange (p := p) hp
  have hnone := fun t ht => lookup_eq_none_of_not_mem (t := t) hintervals h₁ h₂ h₃
    (mem_of_mem_compactionUpdates hvalid) ht
  have hsome := fun p hp => replaces_of_mem hintervals h₁ h₂ h₃ h hp (hnew p hp)
  have hcompaction : Store.Auxiliary (updates₃.entries.flatMap fun p =>
      p.2.compactionState.toList.map fun state => .put (.compaction p.1 state)) := by
    intro w hw
    obtain ⟨p, -, hw⟩ := mem_flatMap.1 hw
    exact Store.auxiliary_put_compaction p.1 id _ w hw
  -- only partitions with new extents are in the first map
  have hentries : ∀ p ∈ updates₁.entries, p.1 ∈ collectExtents u.newObjects := by
    intro p hp
    by_contra hmem
    have hlookup := (hnone p.1 hmem).1
    rw [AList.mem_lookup_iff.2 hp] at hlookup
    exact nomatch hlookup
  have hreplaced : ∀ p ∈ updates₁.entries, ∃ old, p.2.replaced = Store.withKeys p.1 old := by
    intro p hp
    obtain ⟨new, hnew⟩ := exists_of_mem_keys (hentries p hp)
    obtain ⟨m, old, update₁, _, hlookup₁, hold, -⟩ := hsome ⟨p.1, new⟩ hnew
    rw [AList.mem_lookup_iff.2 hp] at hlookup₁
    exact ⟨old, Option.some.inj hlookup₁ ▸ hold⟩
  refine ⟨updates₃, (updates₁.entries.flatMap (·.2.replaced)).map (·.1), _,
    ((Store.auxiliary_objectRows oldObjects).append
      (Store.auxiliary_objectRows objects)).append hcompaction,
    rfl, fun t ht => ?_, fun p hp => ⟨hnew p hp, ?_, ?_⟩, fun k hk => ?_⟩
  · exact AList.lookup_eq_none.1 (hnone t ht).2
  · obtain ⟨l, -, hl⟩ := lookup_contiguousIntervalsForExtents hintervals hp (hnew p hp)
    exact hl.extents_pairwise
  · obtain ⟨m, old, update₁, update₃, hlookup₁, hold, hlookup₃, hreplaces⟩ := hsome p hp
    refine ⟨m, old, update₃, hlookup₃, hreplaces, fun o => ?_⟩
    rw [mem_replaced hreplaced]
    constructor
    · rintro ⟨⟨t, update⟩, hq, old', hold', e, he, heq⟩
      cases heq
      rw [AList.mem_lookup_iff.2 hq] at hlookup₁
      cases hlookup₁
      exact ⟨e, withKeys_injective _ (hold'.symm.trans hold) ▸ he, rfl⟩
    · rintro ⟨e, he, rfl⟩
      exact ⟨⟨p.1, update₁⟩, AList.mem_lookup_iff.1 hlookup₁, old, hold, e, he, rfl⟩
  · obtain ⟨p, hp, old, -, e, -, rfl⟩ := (mem_replaced hreplaced).1 hk
    exact ⟨p.1, e.baseOffset, rfl, hentries p hp⟩

end ReplaceObjectsDbUpdate

/-! ## The extents afterwards -/

namespace Store

/-- The extents that are left when new ones are written, and the rows of others removed,
    unless one is written in their place. -/
theorem mem_put_tombstone {l : List SortedExtents.Entry}
    (hl : l.NodupKeys)
    (hbase : ∀ p ∈ l, ∀ e ∈ p.2, ∀ e' ∈ p.2, e.baseOffset = e'.baseOffset → e = e')
    {replaced : List Key} {e : Extent} {added : List Row}
    (hadded : added = l.flatMap fun p => p.2.map (Row.extent p.1)) :
    Row.extent t e ∈ (s.applyRows (added.map .put)).applyRows
        ((replaced.filter (· ∉ added.map Row.key)).map .tombstone) ↔
      (∃ p ∈ l, p.1 = t ∧ e ∈ p.2) ∨
        Row.extent t e ∈ s ∧ (¬ ∃ p ∈ l, p.1 = t ∧ ∃ e' ∈ p.2, e'.baseOffset = e.baseOffset) ∧
          (Row.extent t e).key ∉ replaced := by
  have hkey : (∃ p ∈ l, p.1 = t ∧ e ∈ p.2) →
      ∃ p ∈ l, p.1 = t ∧ ∃ e' ∈ p.2, e'.baseOffset = e.baseOffset :=
    fun ⟨p, hp, htidp, he⟩ => ⟨p, hp, htidp, e, he, rfl⟩
  rw [hadded, mem_applyRows_tombstone, mem_filter, decide_eq_true_eq, mem_keys_extents,
    mem_put_extents hl hbase]
  constructor
  · rintro ⟨hmem | ⟨hmem, hne⟩, hnot⟩
    · exact .inl hmem
    · exact .inr ⟨hmem, hne, fun hk => hnot ⟨hk, hne⟩⟩
  · rintro (hmem | ⟨hmem, hne, hnot⟩)
    · exact ⟨.inl hmem, fun h => h.2 (hkey hmem)⟩
    · exact ⟨.inr ⟨hmem, hne⟩, fun h => hnot h.1⟩

/-- The extents of a partition after some are replaced. -/
theorem extents_replace (h : Tracks t m (s.extents t)) {old live : List Extent}
    (hsub : old ⊆ s.extents t)
    (hlive : ∀ e ∈ live, 0 ≤ e.baseOffset ∧ e.baseOffset ≤ e.lastOffset ∧
      m.startOffset ≤ e.lastOffset)
    (hpairwise : live.Pairwise (·.lastOffset < ·.baseOffset))
    (hcovers : ∀ o, m.startOffset ≤ o →
      ((∃ e ∈ old, e.Contains o) ↔ ∃ e ∈ live, e.Contains o)) {s' : Store}
    (hs' : ∀ e, Row.extent t e ∈ s' ↔
      e ∈ live ∨ e ∈ s.extents t ∧ (∀ e' ∈ live, e'.baseOffset ≠ e.baseOffset) ∧
        ∀ e' ∈ old, e'.baseOffset ≠ e.baseOffset) :
    ((s.extents t).filter (· ∉ old) ++ live).Perm (s'.extents t) := by
  have hcross : ∀ e ∈ s.extents t, e ∉ old → ∀ e' ∈ live, e'.baseOffset ≠ e.baseOffset := by
    intro e he hnot e' he' heq
    have := h.tiles.disjoint_of_covers hsub (fun e he => (hlive e he).2) hcovers e ⟨he, hnot⟩ e' he'
    have := h.tiles.base_le_last e he
    have := (hlive e' he').2.1
    omega
  have hnodup : live.Nodup := hpairwise.imp_of_mem fun he _ hlt heq => by
    have := (hlive _ he).2.1
    rw [← heq] at hlt
    omega
  refine extents_perm (nodup_append.2 ⟨(s.extents_nodup t).filter _, hnodup, ?_⟩) fun e => ?_
  · intro e he e' he' heq
    obtain ⟨he, hnot⟩ := mem_filter.1 he
    exact hcross e he (of_decide_eq_true hnot) e' he' (heq ▸ rfl)
  · rw [hs', mem_append, mem_filter, decide_eq_true_eq, or_comm]
    refine or_congr_left (and_congr_right fun he => ⟨fun hne hmem => hne.2 e hmem rfl, fun hnot =>
      ⟨hcross e he hnot, fun e' he' heq => hnot ?_⟩⟩)
    rwa [← eq_of_baseOffset_eq (hsub he') he heq]

/-- The extents and the metadata of a partition match when extents are replaced. -/
theorem Inv.tracks_replace (h : s.Inv) {old new : List Extent} {update : PartitionUpdate}
    (hreplaces : Replaces s t m old new update) (hnew : ∀ e ∈ new, e.InRange)
    (hpairwise : new.Pairwise (·.lastOffset < ·.baseOffset)) {s' : Store}
    (hs' : ∀ e, Row.extent t e ∈ s' ↔
      e ∈ liveExtents m.startOffset new ∨ e ∈ s.extents t ∧
        (∀ e' ∈ liveExtents m.startOffset new, e'.baseOffset ≠ e.baseOffset) ∧
        ∀ e' ∈ old, e'.baseOffset ≠ e.baseOffset) :
    Tracks t update.metadata (s'.extents t) := by
  obtain ⟨hm, hspan, epoch, hmetadata⟩ := hreplaces
  have hlive : ∀ e ∈ liveExtents m.startOffset new, 0 ≤ e.baseOffset ∧
      e.baseOffset ≤ e.lastOffset ∧ m.startOffset ≤ e.lastOffset := by
    intro e he
    obtain ⟨he, hstart⟩ := mem_filter.1 he
    exact ⟨(hnew e he).base_nonneg, (hnew e he).base_le_last, of_decide_eq_true hstart⟩
  -- extents that end below the start contain no offsets from the start on
  have hcovers : ∀ o, m.startOffset ≤ o → ((∃ e ∈ old, e.Contains o) ↔
      ∃ e ∈ liveExtents m.startOffset new, e.Contains o) := by
    intro o ho
    rw [hspan.contains_iff o ho]
    constructor
    · rintro ⟨e, he, hcontains⟩
      exact ⟨e, mem_filter.2 ⟨he, decide_eq_true (ho.trans hcontains.2)⟩, hcontains⟩
    · rintro ⟨e, he, hcontains⟩
      exact ⟨e, (mem_filter.1 he).1, hcontains⟩
  have hpairwise := hpairwise.filter (m.startOffset ≤ ·.lastOffset)
  have htracks := h.tracks hm
  rw [hmetadata]
  exact ((htracks.replace (s.extents_nodup t) hspan.nodup hspan.subset hlive hpairwise
    hcovers).withEpoch epoch).perm
      (extents_replace htracks hspan.subset hlive hpairwise hcovers hs')

theorem Inv.replaceObjects (h : s.Inv) {u : ReplaceObjectsDbUpdate} {now : Int}
    {rows : List WriteBatchRow} (hrange : ∀ o ∈ u.newObjects, o.InRange)
    (hrows : u.buildRows s now = .ok rows) : (s.applyRows rows).Inv := by
  obtain ⟨updates, replaced, aux, haux, rfl, hnone, hsome, hkeys⟩ :=
    u.buildRows_eq_ok h hrange hrows
  have hl : (u.addedExtents updates).NodupKeys := by
    rw [NodupKeys, u.keys_addedExtents]
    exact (collectExtents u.newObjects).nodupKeys
  have hbase : ∀ p ∈ u.addedExtents updates, ∀ e ∈ p.2, ∀ e' ∈ p.2,
      e.baseOffset = e'.baseOffset → e = e' := by
    intro p hp e he e' he' heq
    obtain ⟨q, hq, rfl⟩ := mem_map.1 hp
    obtain ⟨hnew, hpairwise, -⟩ := hsome q hq
    by_contra hne
    have hmem := (mem_filter.1 he).1
    have hmem' := (mem_filter.1 he').1
    have := apart_of_pairwise hpairwise e hmem e' hmem' hne
    have := (hnew e hmem).base_le_last
    have := (hnew e' hmem').base_le_last
    omega
  intro t
  by_cases ht : t ∈ collectExtents u.newObjects
  · obtain ⟨new, hp⟩ := exists_of_mem_keys ht
    obtain ⟨hnew, hpairwise, m, old, update, hlookup, hreplaces, hold⟩ := hsome ⟨t, new⟩ hp
    rw [applyRows_append, applyRows_append, applyRows_append,
      getMetadata_put_of_mem (fun p => p.2.metadata) updates.nodupKeys
        (AList.mem_lookup_iff.1 hlookup)]
    refine (h.tracks_replace hreplaces hnew hpairwise fun e => ?_).perm
      ((extents_applyRows_of_ne fun w hw => (haux w hw).2 t).trans (extents_put_metadata _))
    have hstart : updates.startOffset t = m.startOffset := by
      obtain ⟨epoch, hmetadata⟩ := hreplaces.metadata
      rw [PartitionUpdates.startOffset, hlookup]
      dsimp only
      rw [hmetadata]
    have hadded : ∀ l, ⟨t, l⟩ ∈ u.addedExtents updates ↔ l = liveExtents m.startOffset new :=
      fun l => hstart ▸ u.mem_addedExtents hp
    refine (mem_put_tombstone hl hbase rfl).trans (or_congr ⟨?_, fun he => ?_⟩
      (and_congr mem_extents.symm (and_congr ⟨fun hne => ?_, ?_⟩ ?_)))
    · rintro ⟨⟨t', l⟩, hq, rfl, he⟩
      exact (hadded l).1 hq ▸ he
    · exact ⟨⟨t, _⟩, (hadded _).2 rfl, rfl, he⟩
    · exact fun e' he' heq => hne ⟨⟨t, _⟩, (hadded _).2 rfl, rfl, e', he', heq⟩
    · rintro hne ⟨⟨t', l⟩, hq, rfl, e', he', heq⟩
      exact hne e' ((hadded l).1 hq ▸ he') heq
    · simp only [Row.key, hold, not_exists, not_and, ne_eq]
  · -- no rows of other partitions are written
    have hput : ∀ w ∈ (u.addedRows updates).map WriteBatchRow.put,
        ∃ t' o, w.key = .extent t' o ∧ t' ∈ collectExtents u.newObjects := by
      intro w hw
      simp only [ReplaceObjectsDbUpdate.addedRows, map_flatMap, map_map,
        mem_flatMap, mem_map, Function.comp] at hw
      obtain ⟨p, hp, e, -, rfl⟩ := hw
      have hmem := u.keys_addedExtents updates ▸ mem_keys_of_mem hp
      exact ⟨p.1, e.baseOffset, rfl, hmem⟩
    have htombstone : ∀ w ∈ (replaced.filter
        (· ∉ (u.addedRows updates).map Row.key)).map WriteBatchRow.tombstone,
        ∃ t' o, w.key = .extent t' o ∧ t' ∈ collectExtents u.newObjects :=
      forall_mem_map.2 fun k hk => hkeys k (mem_filter.1 hk).1
    have hextents := forall_mem_append.2 ⟨hput, htombstone⟩
    rw [applyRows_append, applyRows_append, getMetadata_put_of_not_mem _ (hnone t ht),
      getMetadata_applyRows_of_ne fun w hw => (haux w hw).1 t]
    refine PartitionInv.perm (h.applyRows_of_ne (fun w hw heq => ?_) fun w hw o heq => ?_)
      ((extents_applyRows_of_ne fun w hw => (haux w hw).2 t).trans (extents_put_metadata _))
    · obtain ⟨_, _, hw, -⟩ := hextents w hw
      cases hw.symm.trans heq
    · obtain ⟨_, _, hw, hmem⟩ := hextents w hw
      exact ht ((Key.extent.inj (hw.symm.trans heq)).1 ▸ hmem)

end Store

end Redpanda.LevelOne.Lsm
