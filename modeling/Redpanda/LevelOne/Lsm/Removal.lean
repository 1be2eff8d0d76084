import Redpanda.LevelOne.Lsm.Tiled

/-!
# Moving the start of the log, and removing topics

The extents that end below a new start offset are exactly those that are removed
(`removedExtents_eq`), and a removed topic leaves no extents behind: where there are
none, nothing is tiled.
-/

namespace Redpanda.LevelOne.Lsm

open Lib Model Lib.Except List

namespace Store

variable {s : Store} {t : TopicIdPartition} {m : MetadataRowValue} {p : Extent → Bool}

/-- The first extent is found from the start offset. -/
theorem findFirstExtent_start (h : Tracks t m (s.extents t)) (hlt : m.startOffset < m.nextOffset) :
    ∃ first ∈ s.extents t, s.findFirstExtent t (some m.startOffset) = some first ∧
      first.baseOffset ≤ m.startOffset ∧
      ∀ e ∈ s.extents t, first.baseOffset ≤ e.baseOffset := by
  have hnonneg := h.start_nonneg
  have hmax := h.next_le_max
  obtain ⟨x, hx, hxo⟩ := h.tiles.covers m.startOffset le_rfl hlt
  have hnext : nextOffset m.startOffset = m.startOffset + 1 := nextOffset_eq (by omega) (by omega)
  rcases hfirst : isAtExtent t (s.prev (.extent t (m.startOffset + 1))) with - | first
  · have := isAtExtent_prev_eq_none.1 hfirst x hx
    omega
  obtain ⟨hmem, hbase, -⟩ := isAtExtent_prev.1 hfirst
  have hlast := h.tiles.start_le_last first hmem
  refine ⟨first, hmem, ?_, by omega, fun e he => ?_⟩
  · simp only [findFirstExtent, isAtExtent_seekAround, hnext, hfirst]
    exact if_neg hlast.not_gt
  · by_contra hgt
    have := h.tiles.disjoint e he first hmem fun heq => by simp [heq] at hgt
    have := h.tiles.start_le_last e he
    have := h.tiles.base_le_last first hmem
    omega

/-- What is removed below a new start offset are the extents that end below it. -/
theorem removedExtents_eq (h : Tracks t m (s.extents t)) {newStart : Int}
    (hlt : m.startOffset < newStart) (hle : newStart ≤ m.nextOffset) :
    SetStartOffsetDbUpdate.removedExtents ⟨t, newStart⟩ s m.startOffset =
      .ok (withKeys t ((s.extents t).filter (·.lastOffset < newStart))) := by
  have hnonneg := h.start_nonneg
  have hmax := h.next_le_max
  obtain ⟨first, hmem, hfirst, hbase, hmin⟩ := findFirstExtent_start h (hlt.trans_le hle)
  have hprev : nextOffset (prevOffset newStart) = newStart := by
    rw [prevOffset_eq (by omega), nextOffset_eq (by omega) (by omega)]
    omega
  rcases hlast : isAtExtent t (s.prev (.extent t newStart)) with - | last
  · have := isAtExtent_prev_eq_none.1 hlast first hmem
    omega
  obtain ⟨hmem', -, hmax'⟩ := isAtExtent_prev.1 hlast
  have hle' : first.baseOffset ≤ last.baseOffset := hmax' first hmem (by omega)
  have hrange : s.getInclusiveExtents t (some m.startOffset) (some (prevOffset newStart)) =
      some (.extent t first.baseOffset, .extent t last.baseOffset) := by
    simp [getInclusiveExtents, hfirst, findLastExtent, hprev, OrderedStore.seekBefore_eq, hlast,
      hle']
  simp only [SetStartOffsetDbUpdate.removedExtents, hrange, getRows_eq hmem hmem' hle',
    Bool.false_eq_true, if_false]
  rw [withKeys, withKeys, filter_map, filter_filter]
  congr 2
  refine filter_congr fun e he => ?_
  have := h.tiles.base_le_last e he
  have hmax' := hmax' e he
  have hmin := hmin e he
  -- an extent that ends below the new start offset lies between the first and the last one
  rw [Bool.eq_iff_iff]
  simp only [Function.comp, Bool.and_eq_true, decide_eq_true_eq]
  exact ⟨fun hlt => hlt.1, fun hlt => ⟨hlt, hmin, hmax' (by omega)⟩⟩

theorem mem_map_fst_withKeys {extents : List Extent} {k : Key} :
    k ∈ (withKeys t extents).map (·.1) ↔ ∃ e ∈ extents, .extent t e.baseOffset = k := by
  simp [withKeys]

/-- The extents that are left when some are removed. -/
theorem extents_tombstones :
    ((s.extents t).filter (¬ p ·)).Perm ((s.applyRows
      (((withKeys t ((s.extents t).filter p)).map (·.1)).map .tombstone)).extents t) := by
  refine extents_perm ((s.extents_nodup t).filter _) fun e => ?_
  rw [mem_applyRows_tombstone, mem_map_fst_withKeys, mem_filter, mem_extents]
  refine and_congr_right fun he => ?_
  simp only [mem_filter, Row.key, Key.extent.injEq, true_and, not_exists, not_and,
    decide_eq_true_eq]
  constructor
  · intro h hp
    exact h e ⟨mem_extents.2 he, hp⟩ rfl
  · intro hp e' he' heq
    rw [eq_of_baseOffset_eq he'.1 (mem_extents.2 he) heq] at he'
    exact hp he'.2

theorem auxiliary_put_compaction (t : TopicIdPartition) (f : CompactionState → CompactionState)
    (states : List CompactionState) :
    Auxiliary (states.map fun state => .put (.compaction t (f state))) :=
  forall_mem_map.2 fun _ _ => ⟨nofun, nofun⟩

variable {rows : List WriteBatchRow} {u : SetStartOffsetDbUpdate} {now : Int}
  {t' : TopicIdPartition} {topics : List TopicId}

/-- The rows written for an accepted request that moves the start. -/
theorem buildRows_setStartOffset (hrows : u.buildRows s now = .ok rows) :
    rows = [] ∨ ∃ m removed objects, ∃ termKeys : List Key, s.getMetadata u.tp = some m ∧
      m.startOffset < u.newStartOffset ∧ u.newStartOffset ≤ m.nextOffset ∧
      u.removedExtents s m.startOffset = .ok removed ∧ (∀ k ∈ termKeys, ∃ t n, k = .term t n) ∧
      rows = (removed.map (·.1)).map .tombstone ++ (objectRows objects ++ termKeys.map .tombstone
        ++ (if 0 < m.compactionEpoch then (s.getCompactionMetadata u.tp).toList else []).map
          fun state => .put (.compaction u.tp (state.truncateWithNewStartOffset u.newStartOffset)))
        ++ [.put (.metadata u.tp { m with
          startOffset := u.newStartOffset
          size := m.size - (removed.map (·.2.len)).sum
          numExtents := m.numExtents - removed.length })] := by
  rw [SetStartOffsetDbUpdate.buildRows] at hrows
  rcases hm : s.getMetadata u.tp with - | m
  · simp [hm] at hrows
  simp only [hm] at hrows
  rw [ite_error_eq_ok, not_lt] at hrows
  obtain ⟨hle, hrows⟩ := hrows
  by_cases hlt : u.newStartOffset ≤ m.startOffset
  · rw [if_pos hlt] at hrows
    exact .inl (Except.ok.inj hrows).symm
  rw [if_neg hlt] at hrows
  obtain ⟨removed, hremoved, hrows⟩ := bind_eq_ok.1 hrows
  obtain ⟨objects, -, hrows⟩ := bind_eq_ok.1 hrows
  refine .inr ⟨m, removed, objects, (s.getTermKeys u.tp (some u.newStartOffset)).dropLast, rfl,
    lt_of_not_ge hlt, hle, hremoved, fun k hk =>
      exists_eq_of_mem_getTermKeys (dropLast_subset _ hk), ?_⟩
  generalize (if 0 < m.compactionEpoch then (s.getCompactionMetadata u.tp).toList else []) =
    compaction at hrows ⊢
  cases hrows
  simp only [append_assoc, map_map, Function.comp_def]

variable (h : s.Inv)

include h

/-- Removing some extents of a partition and writing its metadata. -/
theorem Inv.removeExtents {aux : List WriteBatchRow}
    (haux : Auxiliary aux) (hm : Tracks t m ((s.extents t).filter (¬ p ·))) :
    (s.applyRows (((withKeys t ((s.extents t).filter p)).map (·.1)).map .tombstone ++ aux
      ++ [.put (.metadata t m)])).Inv := by
  intro t'
  by_cases ht : t = t'
  · subst ht
    rw [applyRows_append, applyRows_append]
    have hput : ∀ s : Store, (s.applyRows [.put (.metadata t m)]).getMetadata t = some m := fun s =>
      getMetadata_put_of_mem (l := [⟨t, ()⟩]) (fun _ => m) (nodupKeys_singleton _)
        (mem_singleton_self _)
    have hextents : ∀ s : Store,
        (s.extents t).Perm ((s.applyRows [.put (.metadata t m)]).extents t) := fun s =>
      extents_put_metadata (l := [⟨t, ()⟩]) fun _ => m
    rw [hput]
    exact hm.perm ((extents_tombstones.trans (extents_applyRows_of_ne fun w hw =>
      (haux w hw).2 t)).trans (hextents _))
  · -- the rows of other partitions are not written
    simp only [withKeys, map_map]
    refine h.applyRows_of_ne ?_ ?_ <;>
      refine forall_mem_concat.2 ⟨forall_mem_append.2 ⟨forall_mem_map.2 fun e _ => ?_, ?_⟩, ?_⟩
    · nofun
    · exact fun w hw => (haux w hw).1 t'
    · exact fun heq => ht (Key.metadata.inj heq)
    · exact fun o heq => ht (Key.extent.inj heq).1
    · exact fun w hw => (haux w hw).2 t'
    · nofun

theorem Inv.setStartOffset (hrows : u.buildRows s now = .ok rows) : (s.applyRows rows).Inv := by
  obtain ⟨t, newStart⟩ := u
  rcases buildRows_setStartOffset hrows with rfl | ⟨m, removed, objects, termKeys, hm, hlt, hle,
    hremoved, hterms, rfl⟩
  · exact h
  have htracks := h.tracks hm
  rw [removedExtents_eq htracks hlt hle] at hremoved
  cases hremoved
  refine h.removeExtents (((auxiliary_objectRows objects).append
    (auxiliary_tombstones hterms)).append (auxiliary_put_compaction _ _ _)) ?_
  have := htracks.truncate hlt.le hle
  simpa [withKeys, dataSize, Function.comp_def] using this

/-! ## Removing topics -/

omit h in
/-- The partitions of a topic have metadata. -/
theorem exists_getMetadata_of_mem_partitionsOf
    (ht : t ∈ s.partitionsOf topics) : ∃ m, s.getMetadata t = some m := by
  obtain ⟨tid, -, ht⟩ := mem_flatMap.1 ht
  obtain ⟨pid, hpid, rfl⟩ := mem_map.1 ht
  obtain ⟨r, hr, hat⟩ := mem_filterMap.1 hpid
  have hmem : r ∈ s := (mem_filter.1 ((takeWhile_sublist _).subset hr)).1
  rcases r with ⟨t', m⟩ | _ | _ | _ | _ <;> simp only [isAtMetadata, reduceCtorEq] at hat
  obtain ⟨rfl, rfl⟩ := Option.ite_some_none_eq_some.1 hat
  exact ⟨m, getMetadata_eq_some.2 hmem⟩

/-- All extents of a partition are found. -/
theorem Inv.allExtents_eq (hm : s.getMetadata t = some m) :
    s.allExtents t = withKeys t (s.extents t) := by
  rw [allExtents]
  rcases getInclusiveExtents_all (h.tracks hm).partition_ne (h.base_nonneg t) (h.base_nonneg _)
    with ⟨hnone, hnil⟩ | ⟨range, hrange, hrows⟩
  · rw [hnone, hnil]
    rfl
  · rw [hrange]
    dsimp only
    rw [hrows]

/-- The keys of the rows of a partition. -/
def partitionKeys (s : Store) (t : TopicIdPartition) : List Key :=
  (s.allExtents t).map (·.1) ++ s.getTermKeys t none ++ [.compaction t, .metadata t]

omit h in
theorem partitionTombstones_eq (s : Store) (t : TopicIdPartition) :
    s.partitionTombstones t = (s.partitionKeys t).map .tombstone := by
  simp [partitionTombstones, partitionKeys, Function.comp_def]

section

variable (hm : s.getMetadata t = some m)

include hm

theorem Inv.mem_partitionKeys {k : Key} :
    k ∈ s.partitionKeys t ↔ (∃ e ∈ s.extents t, .extent t e.baseOffset = k) ∨
      k ∈ s.getTermKeys t none ∨ k = .compaction t ∨ k = .metadata t := by
  simp only [partitionKeys, h.allExtents_eq hm, mem_append, mem_map_fst_withKeys, or_assoc,
    mem_cons, not_mem_nil, or_false]

theorem Inv.metadata_mem_partitionKeys : .metadata t' ∈ s.partitionKeys t ↔ t' = t := by
  have hterm : .metadata t' ∉ s.getTermKeys t none := fun hmem => by
    simpa using exists_eq_of_mem_getTermKeys hmem
  simp [h.mem_partitionKeys hm, hterm]

theorem Inv.extent_mem_partitionKeys {o : Int} :
    .extent t' o ∈ s.partitionKeys t ↔ ∃ e ∈ s.extents t, t = t' ∧ e.baseOffset = o := by
  have hterm : .extent t' o ∉ s.getTermKeys t none := fun hmem => by
    simpa using exists_eq_of_mem_getTermKeys hmem
  simp [h.mem_partitionKeys hm, hterm]

end

theorem Inv.removeTopics
    (hrows : removeTopicsRows topics s now = .ok rows) : (s.applyRows rows).Inv := by
  obtain ⟨objects, -, hrows⟩ := bind_eq_ok.1 hrows
  cases hrows
  rw [applyRows_append]
  refine Inv.auxiliary ?_ (auxiliary_objectRows objects)
  have hkeys : (s.partitionsOf topics).flatMap s.partitionTombstones =
      ((s.partitionsOf topics).flatMap s.partitionKeys).map .tombstone := by
    rw [map_flatMap]
    exact flatMap_congr fun t _ => s.partitionTombstones_eq t
  rw [hkeys]
  intro t
  by_cases ht : t ∈ s.partitionsOf topics
  · obtain ⟨m, hm⟩ := exists_getMetadata_of_mem_partitionsOf ht
    have hnone : (s.applyRows (((s.partitionsOf topics).flatMap s.partitionKeys).map
        .tombstone)).getMetadata t = none := by
      refine getMetadata_eq_none.2 fun m hmem => ?_
      exact (mem_applyRows_tombstone.1 hmem).2
        (mem_flatMap.2 ⟨t, ht, (h.metadata_mem_partitionKeys hm).2 rfl⟩)
    rw [hnone]
    refine eq_nil_iff_forall_not_mem.2 fun e he => ?_
    obtain ⟨he, hkey⟩ := mem_applyRows_tombstone.1 (mem_extents.1 he)
    exact hkey (mem_flatMap.2 ⟨t, ht, (h.extent_mem_partitionKeys hm).2
      ⟨e, mem_extents.2 he, rfl, rfl⟩⟩)
  · refine h.applyRows_of_ne (forall_mem_map.2 fun k hk heq => ht ?_)
      (forall_mem_map.2 fun k hk o heq => ht ?_) <;>
      obtain ⟨t', ht', hk⟩ := mem_flatMap.1 hk <;>
      obtain ⟨m, hm⟩ := exists_getMetadata_of_mem_partitionsOf ht' <;>
      obtain rfl : k = _ := heq
    · exact (h.metadata_mem_partitionKeys hm).1 hk ▸ ht'
    · obtain ⟨_, -, rfl, -⟩ := (h.extent_mem_partitionKeys hm).1 hk
      exact ht'

end Store

end Redpanda.LevelOne.Lsm
