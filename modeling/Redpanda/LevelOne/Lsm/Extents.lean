import Redpanda.LevelOne.Lsm.StateReader

/-!
# Reading the extents of a partition

What the functions of `state_reader` find, in terms of the extents of a partition
(`Store.extents`): rows of other types and other partitions do not matter. An
iterator that is moved to a key of an extent finds the extents next to it
(`isAtExtent_seek`, `isAtExtent_prev`), and reading from one extent
to another finds what is between them (`getRows_eq`).
-/

namespace Redpanda.LevelOne.Lsm

open Lib Model List
open OrderedStore (get_eq_some mem_def prev_eq_none prev_eq_some seekBefore_eq seek_eq_some)

/-- A row between the keys of extents of a partition is an extent of the partition. -/
theorem Row.eq_extent_of_between {r : Row} {t : TopicIdPartition} {o o' : Int}
    (h : .extent t o ≤ r.key) (h' : r.key ≤ .extent t o') : ∃ e, r = .extent t e := by
  obtain ⟨o, ho⟩ := Key.eq_extent_of_between h h'
  rcases r with _ | ⟨t', e⟩ | _ | _ | _ <;> simp only [Row.key, reduceCtorEq] at ho
  exact ⟨e, by rw [(Key.extent.inj ho).1]⟩

theorem isAtExtent_eq_some {t : TopicIdPartition} {r : Option Row} {e : Extent} :
    isAtExtent t r = some e ↔ r = some (.extent t e) := by
  rcases r with - | (_ | ⟨t', e'⟩ | _ | _ | _) <;> simp [isAtExtent]

namespace Store

variable {s : Store} {t : TopicIdPartition} {e : Extent} {o : Int}

@[simp]
theorem mem_extents : e ∈ s.extents t ↔ Row.extent t e ∈ s := by
  simp only [extents, mem_filterMap, isAtExtent_eq_some, Option.some.injEq, exists_eq_right]
  rfl

/-- The extents of a partition are in the order of their base offsets. -/
theorem extents_pairwise (s : Store) (t : TopicIdPartition) :
    (s.extents t).Pairwise (·.baseOffset < ·.baseOffset) := by
  refine Pairwise.filterMap _ (fun r r' hlt e he e' he' => ?_) s.sorted
  cases isAtExtent_eq_some.1 he
  cases isAtExtent_eq_some.1 he'
  exact Key.extent_lt_extent.1 hlt

theorem extents_nodup (s : Store) (t : TopicIdPartition) : (s.extents t).Nodup :=
  (s.extents_pairwise t).imp fun h heq => by simp [heq] at h

theorem eq_of_baseOffset_eq {e' : Extent} (h : e ∈ s.extents t) (h' : e' ∈ s.extents t)
    (heq : e.baseOffset = e'.baseOffset) : e = e' := by
  have := OrderedStore.eq_of_key_eq (mem_extents.1 h) (mem_extents.1 h') (by simp [Row.key, heq])
  simpa using this

theorem getMetadata_eq_some {m : MetadataRowValue} :
    s.getMetadata t = some m ↔ Row.metadata t m ∈ s := by
  rw [getMetadata]
  constructor
  · intro h
    rcases hr : s.get (.metadata t) with - | r
    · simp [hr] at h
    · obtain ⟨hmem, hkey⟩ := get_eq_some.1 hr
      rcases r with ⟨t', m'⟩ | _ | _ | _ | _ <;> simp [Row.key, hr] at hkey h
      exact hkey ▸ h ▸ hmem
  · intro h
    have hget : s.get (.metadata t) = some (.metadata t m) := get_eq_some.2 ⟨h, rfl⟩
    rw [hget]

theorem getMetadata_eq_none : s.getMetadata t = none ↔ ∀ m, Row.metadata t m ∉ s := by
  simp only [Option.eq_none_iff_forall_ne_some, ne_eq, getMetadata_eq_some]

/-! ## Moving an iterator -/

/-- The first extent at or above an offset. -/
theorem isAtExtent_seek : isAtExtent t (s.seek (.extent t o)) = some e ↔
    e ∈ s.extents t ∧ o ≤ e.baseOffset ∧ ∀ e' ∈ s.extents t, o ≤ e'.baseOffset →
      e.baseOffset ≤ e'.baseOffset := by
  rw [isAtExtent_eq_some, seek_eq_some]
  simp only [mem_extents, Row.key, Key.extent_le_extent]
  refine and_congr_right fun he => and_congr_right fun ho => ?_
  constructor
  · intro h e' he' ho'
    exact Key.extent_le_extent.1 (h _ he' (Key.extent_le_extent.2 ho'))
  · intro h r hr hk
    -- a row before the extent would be an extent of the partition as well
    by_contra hlt
    obtain ⟨e', rfl⟩ := Row.eq_extent_of_between hk (le_of_not_ge hlt)
    exact hlt (Key.extent_le_extent.2 (h e' hr (Key.extent_le_extent.1 hk)))

section

variable {k : Key}
  (hk : ∀ r ∈ s, ∀ {o}, .extent t o ≤ r.key → r.key < k → ∃ e, r = .extent t e)

include hk

/-- The last extent below a key, if there are no other rows between the extents and the key. -/
theorem isAtExtent_prev_of : isAtExtent t (s.prev k) = some e ↔
    e ∈ s.extents t ∧ .extent t e.baseOffset < k ∧
      ∀ e' ∈ s.extents t, .extent t e'.baseOffset < k → e'.baseOffset ≤ e.baseOffset := by
  rw [isAtExtent_eq_some, prev_eq_some]
  simp only [mem_extents, Row.key]
  refine and_congr_right fun _ => and_congr_right fun _ => ?_
  constructor
  · intro h e' he' hlt
    exact Key.extent_le_extent.1 (h _ he' hlt)
  · intro h r hr hlt
    by_contra hle
    obtain ⟨e', rfl⟩ := hk r hr (le_of_not_ge hle) hlt
    exact hle (Key.extent_le_extent.2 (h e' hr hlt))

theorem isAtExtent_prev_of_eq_none :
    isAtExtent t (s.prev k) = none ↔ ∀ e ∈ s.extents t, k ≤ .extent t e.baseOffset := by
  constructor
  · intro h e he
    by_contra hlt
    have hlt : (Row.extent t e).key < k := lt_of_not_ge hlt
    rcases hr : s.prev k with - | r
    · exact (prev_eq_none.1 hr _ (mem_extents.1 he)).not_gt hlt
    · obtain ⟨hmem, hrk, hmax⟩ := prev_eq_some.1 hr
      obtain ⟨e', rfl⟩ := hk r hmem (hmax _ (mem_extents.1 he) hlt) hrk
      simp [hr, isAtExtent_eq_some.2 rfl] at h
  · intro h
    rcases he : isAtExtent t (s.prev k) with - | e
    · rfl
    · obtain ⟨hmem, hlt, -⟩ := (isAtExtent_prev_of hk).1 he
      exact absurd hlt (h e hmem).not_gt

end

/-- The last extent below an offset. -/
theorem isAtExtent_prev : isAtExtent t (s.prev (.extent t o)) = some e ↔
    e ∈ s.extents t ∧ e.baseOffset < o ∧ ∀ e' ∈ s.extents t, e'.baseOffset < o →
      e'.baseOffset ≤ e.baseOffset := by
  simpa only [Key.extent_lt_extent] using
    isAtExtent_prev_of fun _ _ _ h h' => Row.eq_extent_of_between h h'.le

theorem isAtExtent_prev_eq_none :
    isAtExtent t (s.prev (.extent t o)) = none ↔ ∀ e ∈ s.extents t, o ≤ e.baseOffset := by
  simpa only [Key.extent_le_extent] using
    isAtExtent_prev_of_eq_none fun _ _ _ h h' => Row.eq_extent_of_between h h'.le

theorem isAtExtent_seek_eq_none :
    isAtExtent t (s.seek (.extent t o)) = none ↔ ∀ e ∈ s.extents t, e.baseOffset < o := by
  constructor
  · intro h e he
    by_contra hle
    have hle : .extent t o ≤ (Row.extent t e).key := Key.extent_le_extent.2 (le_of_not_gt hle)
    rcases hr : s.seek (.extent t o) with - | r
    · exact (OrderedStore.seek_eq_none.1 hr _ (mem_extents.1 he)).not_ge hle
    · obtain ⟨-, hk, hmin⟩ := seek_eq_some.1 hr
      obtain ⟨e', rfl⟩ := Row.eq_extent_of_between hk (hmin _ (mem_extents.1 he) hle)
      simp [hr, isAtExtent_eq_some.2 rfl] at h
  · intro h
    rcases he : isAtExtent t (s.seek (.extent t o)) with - | e
    · rfl
    · obtain ⟨hmem, hle, -⟩ := isAtExtent_seek.1 he
      exact absurd hle (h e hmem).not_ge

/-- Looking for an offset finds the extent that begins at or below it, if there is one,
    or else the first one after it. -/
theorem isAtExtent_seekAround : isAtExtent t (s.seekAround t o) =
    (isAtExtent t (s.prev (.extent t (nextOffset o)))).or
      (isAtExtent t (s.seek (.extent t (nextOffset o)))) := by
  have hbefore := s.seekBefore_eq (.extent t (nextOffset o))
  rw [OrderedStore.seekBefore] at hbefore
  rw [seekAround]
  rcases hr : s.seek (.extent t (nextOffset o)) with - | r
  · rw [hr] at hbefore
    dsimp only at hbefore ⊢
    rw [hbefore]
    exact Option.or_none.symm
  · rw [hr] at hbefore
    dsimp only at hbefore ⊢
    rw [hbefore]
    rcases he : isAtExtent t (s.prev (.extent t (nextOffset o))) with - | e
    · simp
    · simp [he]

/-! ## Reading a range -/

/-- The extents with their keys, as they are read. -/
def withKeys (t : TopicIdPartition) (extents : List Extent) : List (Key × Extent) :=
  extents.map fun e => (.extent t e.baseOffset, e)

theorem readExtents_eq {l : List Row} {last : Extent} (hl : l.Pairwise (·.key < ·.key))
    (hlast : Row.extent t last ∈ l)
    (hextents : ∀ r ∈ l, r.key ≤ .extent t last.baseOffset → ∃ e, r = .extent t e) :
    readExtents (.extent t last.baseOffset) l =
      ⟨withKeys t ((l.filterMap fun r => isAtExtent t (some r)).filter
        (·.baseOffset ≤ last.baseOffset)), false⟩ := by
  induction l with
  | nil => cases hlast
  | cons r l ih =>
    rw [pairwise_cons] at hl
    have hle : r.key ≤ .extent t last.baseOffset := by
      rcases mem_cons.1 hlast with rfl | hmem
      · exact le_rfl
      · exact (hl.1 _ hmem).le
    obtain ⟨e, rfl⟩ := hextents r mem_cons_self hle
    have hbase : e.baseOffset ≤ last.baseOffset := Key.extent_le_extent.1 hle
    have hat : isAtExtent t (some (.extent t e)) = some e := isAtExtent_eq_some.2 rfl
    rw [readExtents, if_neg hle.not_gt, filterMap_cons, hat,
      filter_cons_of_pos (by simpa using hbase)]
    dsimp only
    split_ifs with heq
    · -- the last extent: what comes after is above it
      have hnone : (l.filterMap fun r => isAtExtent t (some r)).filter
          (·.baseOffset ≤ last.baseOffset) = [] := by
        refine filter_eq_nil_iff.2 fun e' he' => ?_
        obtain ⟨r, hr, hre⟩ := mem_filterMap.1 he'
        cases isAtExtent_eq_some.1 hre
        have hlt := hl.1 _ hr
        rw [heq] at hlt
        simpa [Row.key] using hlt
      rw [hnone]
      rfl
    · have hlast' : Row.extent t last ∈ l :=
        (mem_cons.1 hlast).resolve_left fun h => heq (by rw [← h]; rfl)
      rw [ih hl.2 hlast' (forall_mem_cons.1 hextents).2]
      rfl

/-- Reading from an extent to another one finds the extents between them. -/
theorem getRows_eq {first last : Extent} (hfirst : first ∈ s.extents t)
    (hlast : last ∈ s.extents t) (hle : first.baseOffset ≤ last.baseOffset) :
    s.getRows (.extent t first.baseOffset, .extent t last.baseOffset) =
      ⟨withKeys t ((s.extents t).filter fun e =>
        first.baseOffset ≤ e.baseOffset ∧ e.baseOffset ≤ last.baseOffset), false⟩ := by
  have hrows : ∀ {r}, r ∈ s.rowsFrom (.extent t first.baseOffset) ↔
      r ∈ s ∧ .extent t first.baseOffset ≤ r.key := by
    simp [OrderedStore.rowsFrom, mem_def]
  have hsorted : (s.rowsFrom (.extent t first.baseOffset)).Pairwise (·.key < ·.key) :=
    s.sorted.filter _
  have hmem := hrows.2 ⟨mem_extents.1 hfirst, le_rfl⟩
  have hread := readExtents_eq hsorted (hrows.2 ⟨mem_extents.1 hlast, Key.extent_le_extent.2 hle⟩)
    fun r hr => Row.eq_extent_of_between (hrows.1 hr).2
  have hfilter : (s.rowsFrom (.extent t first.baseOffset)).filterMap
      (fun r => isAtExtent t (some r)) =
      (s.extents t).filter (first.baseOffset ≤ ·.baseOffset) := by
    rw [OrderedStore.rowsFrom, extents, filterMap_filter, filter_filterMap]
    refine filterMap_congr fun r _ => ?_
    rcases hr : isAtExtent t (some r) with - | e
    · exact ite_self none
    · cases isAtExtent_eq_some.1 hr
      simp [Row.key, Option.filter, eq_comm]
  rw [hfilter, filter_filter] at hread
  rw [getRows]
  rcases hfrom : s.rowsFrom (.extent t first.baseOffset) with - | ⟨r, l⟩
  · exact absurd (hfrom ▸ hmem) not_mem_nil
  · rw [hfrom] at hread hmem hsorted
    -- `first` is a row, so the iteration starts exactly there
    have hkey : r.key = .extent t first.baseOffset := by
      refine le_antisymm ?_ (hrows.1 (hfrom ▸ mem_cons_self)).2
      rcases mem_cons.1 hmem with rfl | hmem
      · exact le_rfl
      · exact ((pairwise_cons.1 hsorted).1 _ hmem).le
    dsimp only
    rw [if_pos hkey, hread]
    simp only [Bool.decide_and, Bool.and_comm]

/-! ## Looking for extents

The functions that look for extents, where offsets are not the largest ones. -/

/-- Looking for the first offset finds the first extent. -/
theorem getExtentGe_zero (hnonneg : ∀ e ∈ s.extents t, 0 ≤ e.baseOffset)
    (h : s.getExtentGe t 0 = some e) :
    e ∈ s.extents t ∧ ∀ e' ∈ s.extents t, e.baseOffset ≤ e'.baseOffset := by
  rw [getExtentGe, Option.filter_eq_some_iff, isAtExtent_seekAround,
    nextOffset_eq (by decide) (by decide)] at h
  rcases Option.or_eq_some_iff.1 h.1 with h | ⟨hnone, h⟩
  · obtain ⟨hmem, hlt, -⟩ := isAtExtent_prev.1 h
    exact ⟨hmem, fun e' he' => by have := hnonneg e' he'; omega⟩
  · obtain ⟨hmem, -, hmin⟩ := isAtExtent_seek.1 h
    exact ⟨hmem, fun e' he' => hmin e' he' (isAtExtent_prev_eq_none.1 hnone e' he')⟩

/-- A range that is found begins with an extent at `base` and ends with one up to `last`. -/
theorem getExtentRange_eq_some {base last : Int} {range : Key × Key} (hbase : 0 ≤ base)
    (hle : base ≤ last) (hlast : last < Offset.max) (h : s.getExtentRange t base last = some range) :
    ∃ first ∈ s.extents t, ∃ final ∈ s.extents t, first.baseOffset = base ∧
      final.lastOffset = last ∧ first.baseOffset ≤ final.baseOffset ∧
      range = (.extent t first.baseOffset, .extent t final.baseOffset) := by
  simp only [getExtentRange, seekBefore_eq, Option.bind_eq_bind,
    Option.bind_eq_some_iff, Option.guard_eq_some', nextOffset_eq (show -1 ≤ last by omega) hlast] at h
  obtain ⟨first, hfirst, -, hfirstBase, final, hfinal, -, hfinalLast, hrange⟩ := h
  obtain ⟨hmem, -, -⟩ := isAtExtent_seek.1 hfirst
  obtain ⟨hmem', -, hmax⟩ := isAtExtent_prev.1 hfinal
  exact ⟨first, hmem, final, hmem', hfirstBase, hfinalLast, hmax first hmem (by omega),
    (Option.some.inj hrange).symm⟩

/-- All extents of a partition are found, if no base offset is negative. -/
theorem getInclusiveExtents_all (ht : t.partition ≠ -1)
    (hnonneg : ∀ e ∈ s.extents t, 0 ≤ e.baseOffset)
    (hnext : ∀ e ∈ s.extents (nextPartition t), 0 ≤ e.baseOffset) :
    (s.getInclusiveExtents t none none = none ∧ s.extents t = []) ∨
      ∃ range, s.getInclusiveExtents t none none = some range ∧
        s.getRows range = ⟨withKeys t (s.extents t), false⟩ := by
  have hbelow : ∀ {o}, .extent t o < Key.extent (nextPartition t) 0 := Key.extent_lt_nextPartition ht
  -- up to the next partition, there are only extents of this one
  have hk : ∀ r ∈ s, ∀ {o}, .extent t o ≤ r.key → r.key < .extent (nextPartition t) 0 →
      ∃ e, r = .extent t e := by
    intro r hr o h h'
    rcases Key.eq_extent_of_lt_nextPartition ht h h' with ⟨o, ho⟩ | ⟨o, hneg, ho⟩
    · exact Row.eq_extent_of_between h ho.le
    · obtain ⟨e, rfl⟩ := Row.eq_extent_of_between ho.ge ho.le
      have hbase : e.baseOffset = o := (Key.extent.inj ho).2
      exact absurd (hnext e (mem_extents.2 hr)) (by omega)
  simp only [getInclusiveExtents, findFirstExtent, findLastExtent, seekBefore_eq]
  rcases hfirst : isAtExtent t (s.seek (.extent t 0)) with - | first
  · refine .inl ⟨rfl, eq_nil_iff_forall_not_mem.2 fun e he => ?_⟩
    exact absurd (hnonneg e he) (isAtExtent_seek_eq_none.1 hfirst e he).not_ge
  rcases hlast : isAtExtent t (s.prev (.extent (nextPartition t) 0)) with - | last
  · refine .inl ⟨rfl, eq_nil_iff_forall_not_mem.2 fun e he => ?_⟩
    exact ((isAtExtent_prev_of_eq_none hk).1 hlast e he).not_gt hbelow
  obtain ⟨hmem, -, hmin⟩ := isAtExtent_seek.1 hfirst
  obtain ⟨hmem', -, hmax⟩ := (isAtExtent_prev_of hk).1 hlast
  have hle := hmax first hmem hbelow
  refine .inr ⟨(.extent t first.baseOffset, .extent t last.baseOffset), by simp [hle], ?_⟩
  rw [getRows_eq hmem hmem' hle, filter_eq_self.2]
  intro e he
  simpa using ⟨hmin e he (hnonneg e he), hmax e he hbelow⟩

end Store

end Redpanda.LevelOne.Lsm
