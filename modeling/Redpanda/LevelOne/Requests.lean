import Redpanda.LevelOne.State

/-!
# The extents of a request

What is collected from the objects of a request: for each partition exactly the
extents that the objects have for it (`collectExtents_perm`), in some order. The
intervals of extents that are in order cover the same offsets as the extents
(`contiguousIntervals_spec`).
-/

namespace Redpanda.LevelOne

open Lib Model List

/-- The extents of an object for a partition. -/
def NewObject.extentsOf (o : NewObject) (t : TopicIdPartition) : List Extent :=
  o.extentMetas.entries.filterMap fun p => if p.1 = t then some (p.2.toExtent o.oid) else none

/-- The extents collected for a partition. -/
def SortedExtents.of (ret : SortedExtents) (t : TopicIdPartition) : List Extent :=
  (ret.lookup t).getD []

variable {t : TopicIdPartition} {e : Extent}

namespace SortedExtents

theorem of_insertExtent_self (ret : SortedExtents) (t : TopicIdPartition) (e : Extent) :
    (of (insertExtent ret t e) t).Perm (e :: of ret t) := by
  rw [of, insertExtent, AList.lookup_insert]
  exact perm_orderedInsert _ _ _

theorem of_insertExtent_ne {ret : SortedExtents} {t' : TopicIdPartition} (h : t ≠ t') :
    of (insertExtent ret t' e) t = of ret t := by
  rw [of, insertExtent, AList.lookup_insert_ne h]
  rfl

theorem of_collectExtentsByTidp (o : NewObject) (ret : SortedExtents) (t : TopicIdPartition) :
    (of (o.collectExtentsByTidp ret) t).Perm (of ret t ++ o.extentsOf t) := by
  rw [NewObject.collectExtentsByTidp, NewObject.extentsOf]
  generalize o.extentMetas.entries = metas
  induction metas generalizing ret with
  | nil => simp
  | cons p metas ih =>
    rw [foldl_cons]
    refine (ih _).trans ?_
    by_cases hp : p.1 = t
    · subst hp
      rw [filterMap_cons, if_pos rfl]
      exact ((of_insertExtent_self ret p.1 _).append_right _).trans perm_middle.symm
    · rw [filterMap_cons_none (by simp [hp]), of_insertExtent_ne (Ne.symm hp)]

end SortedExtents

/-- What is collected for a partition is what the objects have for it. -/
theorem collectExtents_perm (objects : List NewObject) (t : TopicIdPartition) :
    ((collectExtents objects).of t).Perm (objects.flatMap (·.extentsOf t)) := by
  have h : ∀ ret : SortedExtents, (SortedExtents.of (objects.foldl
      (fun ret o => o.collectExtentsByTidp ret) ret) t).Perm
        (ret.of t ++ objects.flatMap (·.extentsOf t)) := by
    induction objects with
    | nil => simp
    | cons o objects ih =>
      intro ret
      rw [foldl_cons, flatMap_cons, ← append_assoc]
      exact (ih _).trans ((SortedExtents.of_collectExtentsByTidp o ret t).append_right _)
  exact h ∅

theorem lookup_insertExtent_ne_nil {ret : SortedExtents} (hret : ∀ t, ret.lookup t ≠ some [])
    (t : TopicIdPartition) (e : Extent) :
    ∀ t', (insertExtent ret t e).lookup t' ≠ some [] := by
  intro t'
  rcases eq_or_ne t' t with rfl | hne
  · rw [insertExtent, AList.lookup_insert]
    intro heq
    have := (perm_orderedInsert (· ≤ ·) e ((ret.lookup t').getD [])).length_eq
    simp [Option.some.inj heq] at this
  · rw [insertExtent, AList.lookup_insert_ne hne]
    exact hret t'

variable {extents : List Extent} {objects : List NewObject} {intervals : List Interval}

section

variable (h : ⟨t, extents⟩ ∈ (collectExtents objects).entries)

include h

/-- No partition is collected without extents. -/
theorem ne_nil_of_mem_collectExtents : extents ≠ [] := by
  have hlookup : ∀ t, (collectExtents objects).lookup t ≠ some [] :=
    foldlRecOn (motive := fun ret : SortedExtents => ∀ t, ret.lookup t ≠ some [])
      objects _ (fun t => by simp) fun ret hret o _ =>
        foldlRecOn (motive := fun ret : SortedExtents => ∀ t, ret.lookup t ≠ some [])
          _ _ hret fun ret hret p _ => lookup_insertExtent_ne_nil hret p.1 _
  rintro rfl
  exact hlookup t (AList.mem_lookup_iff.2 h)

/-- The extents collected for a partition are those of its entry. -/
theorem of_eq_of_mem : (collectExtents objects).of t = extents := by
  rw [SortedExtents.of, AList.mem_lookup_iff.2 h]
  rfl

end

theorem of_mem_extentsOf {o : NewObject} (h : e ∈ o.extentsOf t) :
    ∃ m, ⟨t, m⟩ ∈ o.extentMetas.entries ∧ m.toExtent o.oid = e := by
  simp only [NewObject.extentsOf, mem_filterMap, Option.ite_none_right_eq_some,
    Option.some.injEq] at h
  obtain ⟨⟨t, m⟩, hmem, rfl, rfl⟩ := h
  exact ⟨m, hmem, rfl⟩

/-- The extents that are collected are those of the objects. -/
theorem exists_of_mem_collectExtents {p : SortedExtents.Entry}
    (hp : p ∈ (collectExtents objects).entries) (he : e ∈ p.2) :
    ∃ o ∈ objects, ∃ m, ⟨p.1, m⟩ ∈ o.extentMetas.entries ∧ m.toExtent o.oid = e := by
  rw [← of_eq_of_mem hp, (collectExtents_perm objects p.1).mem_iff] at he
  obtain ⟨o, ho, he⟩ := mem_flatMap.1 he
  exact ⟨o, ho, of_mem_extentsOf he⟩

theorem ExtentMeta.toExtent_injective (oid : ObjectId) :
    Function.Injective (ExtentMeta.toExtent · oid) := by
  rintro ⟨⟩ ⟨⟩ h
  simpa [ExtentMeta.toExtent] using h

/-- The extents of different objects for a partition are different. -/
theorem nodup_of_mem_collectExtents (hids : (objects.map (·.oid)).Nodup)
    {p : SortedExtents.Entry} (hp : p ∈ (collectExtents objects).entries) :
    p.2.Nodup := by
  rw [← of_eq_of_mem hp, (collectExtents_perm objects p.1).nodup_iff, nodup_flatMap]
  refine ⟨fun o _ => ?_, (pairwise_map.1 hids).imp fun hne => ?_⟩
  · refine Nodup.filterMap (fun a b e ha hb => ?_) o.extentMetas.nodupKeys.nodup
    obtain ⟨hat, ha⟩ := Option.ite_none_right_eq_some.1 (Option.mem_def.1 ha)
    obtain ⟨hbt, hb⟩ := Option.ite_none_right_eq_some.1 (Option.mem_def.1 hb)
    have hmeta : a.2.toExtent o.oid = b.2.toExtent o.oid :=
      (Option.some.inj ha).trans (Option.some.inj hb).symm
    exact Sigma.ext (hat.trans hbt.symm) (heq_of_eq (ExtentMeta.toExtent_injective o.oid hmeta))
  · intro e he he'
    obtain ⟨_, -, rfl⟩ := of_mem_extentsOf he
    obtain ⟨_, -, heq⟩ := of_mem_extentsOf he'
    exact hne (congrArg Extent.oid heq).symm

/-- The extents of an object have partitions that can be found, and offsets which are
    neither negative nor the largest one. -/
def NewObject.InRange (o : NewObject) : Prop :=
  ∀ p ∈ o.extentMetas.entries, p.1.partition ≠ -1 ∧ 0 ≤ p.2.baseOffset ∧
    p.2.lastOffset < Offset.max
  deriving Decidable

/-! ## Intervals -/

/-- An offset is in an interval. -/
def Interval.Contains (i : Interval) (o : Int) : Prop :=
  i.baseOffset ≤ o ∧ o ≤ i.lastOffset

/-- An offset is in an extent. -/
def Extent.Contains (e : Extent) (o : Int) : Prop :=
  e.baseOffset ≤ o ∧ o ≤ e.lastOffset

/-- The offsets of an extent are in order, and neither negative nor the largest one. -/
structure Extent.InRange (e : Extent) : Prop where
  base_nonneg : 0 ≤ e.baseOffset
  base_le_last : e.baseOffset ≤ e.lastOffset
  last_lt_max : e.lastOffset < Offset.max

/-- What the intervals of extents have in common with the extents. -/
structure IntervalsOf (intervals : List Interval) (extents : List Extent) : Prop where
  base_nonneg : ∀ i ∈ intervals, 0 ≤ i.baseOffset
  base_le_last : ∀ i ∈ intervals, i.baseOffset ≤ i.lastOffset
  last_lt_max : ∀ i ∈ intervals, i.lastOffset < Offset.max
  pairwise : intervals.Pairwise (·.lastOffset < ·.baseOffset)
  extents_pairwise : extents.Pairwise (·.lastOffset < ·.baseOffset)
  contains_iff : ∀ o, (∃ i ∈ intervals, i.Contains o) ↔ ∃ e ∈ extents, e.Contains o

/-- An interval begins at or above the first extent. -/
theorem IntervalsOf.le_base (h : IntervalsOf intervals (e :: extents))
    (he : e.baseOffset ≤ e.lastOffset) {i : Interval} (hi : i ∈ intervals) :
    e.baseOffset ≤ i.baseOffset := by
  obtain ⟨e', he', hcontains⟩ :=
    (h.contains_iff i.baseOffset).1 ⟨i, hi, le_rfl, h.base_le_last i hi⟩
  rcases mem_cons.1 he' with rfl | he'
  · exact hcontains.1
  · have := (pairwise_cons.1 h.extents_pairwise).1 e' he'
    have := hcontains.1
    omega

/-- The intervals after a current one, which stands for the extents merged so far. -/
theorem intervalsAfter_spec {first : Extent} (hfirst : first.InRange)
    (hextents : ∀ e ∈ extents, e.InRange)
    (h : intervalsAfter t first.baseOffset first.lastOffset extents = .ok intervals) :
    IntervalsOf intervals (first :: extents) := by
  obtain ⟨hnonneg, hle, hmax⟩ := hfirst
  induction extents generalizing first intervals with
  | nil =>
    cases h
    refine ⟨by simpa, by simpa, by simpa, pairwise_singleton _ _,
      pairwise_singleton _ _, fun o => ?_⟩
    simp [Interval.Contains, Extent.Contains]
  | cons e extents ih =>
    obtain ⟨henonneg, hele, hemax⟩ := hextents e mem_cons_self
    have hextents := (forall_mem_cons.1 hextents).2
    rw [intervalsAfter, nextOffset_eq (by omega) hmax] at h
    split_ifs at h with heq hlt
    · -- the current interval is extended by the next extent
      have ih : IntervalsOf intervals ({ first with lastOffset := e.lastOffset } :: extents) :=
        ih hextents h hnonneg (show first.baseOffset ≤ e.lastOffset by omega) hemax
      obtain ⟨hbefore, hpairwise⟩ := pairwise_cons.1 ih.extents_pairwise
      refine ⟨ih.base_nonneg, ih.base_le_last, ih.last_lt_max, ih.pairwise, ?_, fun o => ?_⟩
      · refine pairwise_cons.2 ⟨forall_mem_cons.2 ⟨by omega, fun e' he' => ?_⟩,
          pairwise_cons.2 ⟨hbefore, hpairwise⟩⟩
        have : e.lastOffset < e'.baseOffset := hbefore e' he'
        omega
      · rw [ih.contains_iff]
        simp only [mem_cons, exists_eq_or_imp]
        rw [← or_assoc]
        refine or_congr_left ?_
        simp only [Extent.Contains]
        omega
    · -- a gap: the current interval ends
      obtain ⟨intervals, hintervals, hcons⟩ := Except.bind_eq_ok.1 h
      cases hcons
      have ih := ih hextents hintervals henonneg hele hemax
      have hbefore : ∀ i ∈ intervals, first.lastOffset < i.baseOffset := fun i hi => by
        have := ih.le_base hele hi
        omega
      refine ⟨forall_mem_cons.2 ⟨hnonneg, ih.base_nonneg⟩, forall_mem_cons.2 ⟨hle, ih.base_le_last⟩,
        forall_mem_cons.2 ⟨hmax, ih.last_lt_max⟩,
        pairwise_cons.2 ⟨hbefore, ih.pairwise⟩, ?_, fun o => ?_⟩
      · refine pairwise_cons.2 ⟨forall_mem_cons.2 ⟨by omega, fun e' he' => ?_⟩,
          ih.extents_pairwise⟩
        have := (pairwise_cons.1 ih.extents_pairwise).1 e' he'
        omega
      · simp only [mem_cons, exists_eq_or_imp]
        refine or_congr Iff.rfl ?_
        simpa using ih.contains_iff o

/-- The intervals of extents cover the same offsets, if no extent ends before it begins. -/
theorem contiguousIntervals_spec (hextents : ∀ e ∈ extents, e.InRange)
    (h : contiguousIntervals t extents = .ok intervals) : IntervalsOf intervals extents := by
  rcases extents with - | ⟨e, extents⟩
  · cases h
    exact ⟨by simp, by simp, by simp, .nil, .nil, by simp⟩
  · exact intervalsAfter_spec (hextents e mem_cons_self)
      (forall_mem_cons.1 hextents).2 h

end Redpanda.LevelOne
