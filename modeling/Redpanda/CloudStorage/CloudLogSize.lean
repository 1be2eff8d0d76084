import Redpanda.CloudStorage.ArchivalMetadataStm
import Redpanda.Lib.Run

/-!
# The size of the log in cloud storage

The manifest keeps the size of its log as a counter (`stm_region_size_bytes`), which every command
adjusts, and which should be the size of the segments that are not below the start offset. The
counter is off after

* a segment below the start offset is re-uploaded: the size of the replaced segment has already
  been subtracted;
* segments are moved to a spillover manifest while there are others below the start offset, which
  are added to the size of the archive;

and `compute_cloud_log_size`, which computes the size anew, adds up the sizes in an `int`
(`exists_run_size_ne`). In all the runs without the first two (`Counted`) both counters are exact,
and so is the computed size while it is smaller than what an `int` can hold
(`size_eq_of_run`).
-/

namespace Redpanda.CloudStorage

open Model Lib List
open SegmentMeta (baseOffset committedOffset)

/-- The bytes of some segments. -/
def sizeOf (l : List SegmentMeta) : Nat := (l.map SegmentMeta.sizeBytes).sum

theorem sizeOf_append (l l' : List SegmentMeta) : sizeOf (l ++ l') = sizeOf l + sizeOf l' := by
  simp [sizeOf]

theorem sizeOf_le_of_sublist {l l' : List SegmentMeta} (h : l.Sublist l') : sizeOf l ≤ sizeOf l' :=
  (h.map SegmentMeta.sizeBytes).sum_le_sum fun _ _ => Nat.zero_le _

/-- The bytes of the segments with a property, segment by segment. -/
theorem sizeOf_filter (q : SegmentMeta → Prop) [DecidablePred q] (l : List SegmentMeta) :
    sizeOf (l.filter (q ·)) = (l.map fun s => if q s then s.sizeBytes else 0).sum := by
  induction l with
  | nil => rfl
  | cons s l ih =>
    rw [sizeOf] at ih
    by_cases hs : q s <;> simp [sizeOf, hs, ih]

namespace PartitionManifest

variable {p p' : PartitionManifest} {m : SegmentMeta} {o : Int}

/-- The counter of the bytes is exact. The other fields say where the segments and the start
    offset are. -/
structure Sized (p : PartitionManifest) : Prop where
  contiguous : p.Contiguous
  aligned : p.Aligned
  le_lastOffset : ∀ s ∈ p.segments, s.committedOffset ≤ p.lastOffset
  lt_max : ∀ s ∈ p.segments, s.committedOffset < Offset.max
  start_eq_min : p.segments = [] → p.startOffset = Offset.min
  size_eq : p.cloudLogSizeBytes = sizeOf (p.segmentsFrom p.startOffset)

theorem sized_empty : Sized {} where
  contiguous := ⟨0, 0, le_rfl, rfl⟩
  aligned _ hs := absurd hs not_mem_nil
  le_lastOffset _ hs := absurd hs not_mem_nil
  lt_max _ hs := absurd hs not_mem_nil
  start_eq_min _ := rfl
  size_eq := rfl

/-! ## Adding a segment -/

/-- A segment that is found safe cuts no other one. -/
theorem not_cuts_of_safe (hp : p.Contiguous) (hmax : ∀ s ∈ p.segments, s.committedOffset < Offset.max)
    (hle : m.baseOffset ≤ m.committedOffset) (hsafe : p.safeSegmentMetaToAdd [m] = 1) :
    ∀ s ∈ p.segments, ¬ Cuts baseOffset committedOffset m s := by
  intro s hs
  have hle_s := hp.separated.base_le_last s hs
  have hcheck : (p.checkSegment ⟨p.lastOffset, p.segments.getLast?⟩ m).isSome := by
    rw [safeSegmentMetaToAdd, checkSegments] at hsafe
    split at hsafe
    · exact absurd hsafe (by decide)
    · simp [*]
  rw [checkSegment, if_neg fun h => ne_nil_of_mem hs h.1] at hcheck
  rw [Cuts]
  rcases hfind : p.find m.baseOffset with _ | ⟨x, rest⟩
  · -- after the last segment
    rw [hfind] at hcheck
    have hscrub : scrubSegmentMeta m p.segments.getLast? = [] := by
      by_contra h
      simp [h] at hcheck
    obtain ⟨t, ht⟩ := exists_getLast?_eq_some hs
    have hbase := (of_scrubSegmentMeta_eq_nil hscrub).2 t ht
    obtain ⟨start, stop, hstart, hcur⟩ := hp
    have hstop := hcur.last_add_one_eq ht
    have := hcur.last_lt_stop s hs
    have := hcur.start_le_base s hs
    rw [nextOffset_eq (by omega) (hmax t (mem_of_getLast? ht))] at hbase
    omega
  · -- the ends are those of segments
    rw [hfind] at hcheck
    have hsafe : p.safeReupload m x rest := by
      by_contra h
      simp [h] at hcheck
    obtain ⟨hbase, hsuffix⟩ := find_eq_some hfind
    obtain ⟨t, ht, hcommitted⟩ := exists_of_safeReupload hsafe
    have hx : x ∈ p.segments := hsuffix.subset mem_cons_self
    have hmem : t ∈ p.segments := hsuffix.subset ht
    have := hp.separated.base_le_last x hx
    have := hp.separated.base_le_last t hmem
    have heq_or : ∀ t ∈ p.segments, s = t ∨ s.committedOffset < t.baseOffset ∨
        t.committedOffset < s.baseOffset := fun t ht =>
      (eq_or_ne s t).imp_right (hp.separated.lt_or_lt hs ht)
    rcases heq_or x hx with rfl | hsx <;> rcases heq_or t hmem with rfl | hst <;> omega

theorem startOffset_add (hm : ¬ p.Refuses m) :
    (p.add m).startOffset = (p.startAt m.baseOffset).startOffset := by
  rw [add_of_not_refuses hm]

theorem archiveSizeBytes_add : (p.add m).archiveSizeBytes = p.archiveSizeBytes := by
  by_cases hm : p.Refuses m
  · obtain ⟨moved, heq⟩ := add_of_refuses hm
    rw [heq]
  · rw [add_of_not_refuses hm, startAt]
    split_ifs <;> rfl

/-- A segment that does not begin below the start offset is counted, and not those it replaces. -/
theorem Sized.add (h : p.Sized) (hbase : 0 ≤ m.baseOffset) (hle : m.baseOffset ≤ m.committedOffset)
    (hmax : m.committedOffset < Offset.max) (hstart : p.startOffset ≤ m.baseOffset)
    (hsafe : p.safeSegmentMetaToAdd [m] = 1) : (p.add m).Sized := by
  have hcut := not_cuts_of_safe h.contiguous h.lt_max hle hsafe
  by_cases hm : p.Refuses m
  · obtain ⟨moved, heq⟩ := add_of_refuses hm
    rw [heq]
    exact { h with }
  have hcontiguous : (p.add m).Contiguous := by
    have hall := (Checked.self h.contiguous).contiguous_addAll h.contiguous
      (l := [m]) (by simpa using hmax.le) (fun j m' hj hm' => ?_) 1 hsafe.ge
    · exact hall
    · obtain ⟨rfl, rfl⟩ : j = 0 ∧ m' = m := by
        rcases j with _ | j
        · exact ⟨rfl, (Option.some.inj hm').symm⟩
        · simp at hm'
      exact .inr ⟨fun _ => ⟨hbase, hle⟩, hcut⟩
  have hmem : ∀ s ∈ (p.add m).segments, s = m ∨ s ∈ p.segments := fun s hs =>
    mem_of_mem_insertCovering (segments_add hm ▸ hs)
  -- the start offset, which is the base of the segment if it is the first one
  have hstart' : (p.add m).startOffset ≤ m.baseOffset ∧
      ∀ s ∈ p.segments, (p.add m).startOffset = p.startOffset := by
    rw [startOffset_add hm, startAt]
    split_ifs with hempty
    · exact ⟨le_rfl, fun s hs => absurd hempty.2 (ne_nil_of_mem hs)⟩
    · exact ⟨hstart, fun _ _ => rfl⟩
  refine ⟨hcontiguous, fun s hs => ?_, fun s hs => ?_, fun s hs => ?_, fun hnil => ?_, ?_⟩
  · rcases hmem s hs with rfl | hs
    · exact .inr hstart'.1
    · rw [hstart'.2 s hs]
      exact h.aligned s hs
  · rw [add_of_not_refuses hm]
    rcases hmem s hs with rfl | hs
    · exact le_max_left _ _
    · exact (h.le_lastOffset s hs).trans (le_max_right _ _)
  · rcases hmem s hs with rfl | hs
    · exact hmax
    · exact h.lt_max s hs
  · rw [segments_add hm, insertCovering] at hnil
    simp at hnil
  · -- the bytes of the segments from the start offset on
    have hsum := sum_insertCovering baseOffset committedOffset
      (fun s => if (p.add m).startOffset ≤ s.committedOffset then s.sizeBytes else 0) m p.segments
    rw [← segments_add hm, ← sizeOf_filter, ← sizeOf_filter, ← sizeOf_filter,
      ← segmentsFrom_eq_filter hcontiguous.separated, if_pos (hstart'.1.trans hle)] at hsum
    have hcovered : (covered baseOffset committedOffset m p.segments).filter
        ((p.add m).startOffset ≤ ·.committedOffset) =
          covered baseOffset committedOffset m p.segments := by
      refine filter_eq_self.2 fun s hs => ?_
      have := covers_of_mem_covered hs
      have := h.contiguous.separated.base_le_last s (mem_of_mem_covered hs)
      simp only [decide_eq_true_eq]
      omega
    have hsegments : p.segments.filter ((p.add m).startOffset ≤ ·.committedOffset) =
        p.segmentsFrom p.startOffset := by
      rw [segmentsFrom_eq_filter h.contiguous.separated]
      refine filter_congr fun s hs => ?_
      rw [hstart'.2 s hs]
    have hle_size := sizeOf_le_of_sublist ((covered_sublist baseOffset
      committedOffset m p.segments).filter
        ((p.add m).startOffset ≤ ·.committedOffset))
    rw [hcovered, hsegments, ← h.size_eq] at hsum hle_size
    have hsize : (p.add m).cloudLogSizeBytes = p.cloudLogSizeBytes -
        sizeOf (covered baseOffset committedOffset m p.segments) +
          m.sizeBytes := by
      rw [add_of_not_refuses hm, sizeOf]
    omega

/-! ## Moving the start offset -/

theorem segmentsFrom_of_le {o o' : Int} (hle : o ≤ o') :
    p.segmentsFrom o' = (p.segmentsFrom o).dropWhile (·.committedOffset < o') := by
  rw [segmentsFrom, segmentsFrom, ← takeWhile_append_dropWhile (p := fun s : SegmentMeta =>
    decide (s.committedOffset < o)) (l := p.segments), dropWhile_append_of_pos,
    takeWhile_append_dropWhile]
  intro s hs
  have := mem_takeWhile_imp hs
  simp only [decide_eq_true_eq] at this ⊢
  omega

/-- A segment that begins at an offset is the first one from there on. -/
theorem exists_segmentsFrom_eq (h : p.SeparatedSegments) {s : SegmentMeta} (hs : s ∈ p.segments)
    (hbase : s.baseOffset = o) : ∃ rest, p.segmentsFrom o = s :: rest := by
  have hmem : s ∈ p.segmentsFrom o := (mem_segmentsFrom h).2 ⟨hs, hbase ▸ h.base_le_last s hs⟩
  obtain ⟨t, rest, hrest⟩ := exists_cons_of_ne_nil (ne_nil_of_mem hmem)
  have ht := ((mem_segmentsFrom h (s := t) (o := o)).1 (by simp [hrest])).2
  rw [hrest] at hmem
  rcases mem_cons.1 hmem with rfl | hmem
  · exact ⟨rest, hrest⟩
  · have := lt_base_of_segmentsFrom h hrest s hmem
    omega

/-- After the start offset is moved, the log has the segments from the new one on. -/
theorem segmentsFrom_advanceStartOffset (h : p.SeparatedSegments)
    (hadvance : p.advanceStartOffset o = some p') :
    p'.segmentsFrom p'.startOffset = p.segmentsFrom o := by
  obtain ⟨-, -, hstart, heq⟩ := advanceStartOffset_eq_some h hadvance
  have hsegments : p'.segments = p.segments := by rw [heq]
  have hfrom : ∀ o, p'.segmentsFrom o = p.segmentsFrom o := fun o => by
    rw [segmentsFrom, segmentsFrom, hsegments]
  rw [hfrom, hstart]
  rcases hhead : (p.segmentsFrom o).head? with _ | s
  · rfl
  · obtain ⟨rest, hrest⟩ := head?_eq_some_iff.1 hhead
    obtain ⟨hs, hle⟩ := (mem_segmentsFrom h (s := s) (o := o)).1 (by simp [hrest])
    simp only [Option.map_some, Option.getD_some]
    rcases le_total o s.baseOffset with hbase | hbase
    · rw [segmentsFrom_of_le hbase, hrest, dropWhile_cons_of_neg]
      simpa using h.base_le_last s hs
    · obtain ⟨rest', hrest'⟩ := exists_segmentsFrom_eq h hs rfl
      rw [segmentsFrom_of_le hbase, hrest', dropWhile_cons_of_neg]
      simpa using hle

/-- `advance_start_offset` begins to subtract at the first segment that is counted. -/
theorem Sized.segmentContaining_startOffset (h : p.Sized)
    (hne : p.segmentsFrom p.startOffset ≠ []) :
    (p.segmentContaining p.startOffset).getD p.segments = p.segmentsFrom p.startOffset := by
  have hseparated := h.contiguous.separated
  have hlast : ¬ p.lastOffset < p.startOffset := by
    obtain ⟨s, hs⟩ := exists_mem_of_ne_nil _ hne
    rw [mem_segmentsFrom hseparated] at hs
    have := h.le_lastOffset s hs.1
    omega
  rw [segmentContaining, if_neg hlast]
  rcases hprev : (p.segments.takeWhile (·.baseOffset ≤ p.startOffset)).getLast? with _ | prev
  · -- all the segments are above the start offset
    rw [hprev, segmentsFrom_eq_filter hseparated]
    rw [getLast?_eq_none_iff] at hprev
    refine (filter_eq_self.2 fun s hs => ?_).symm
    have hall : ∀ s ∈ p.segments, ¬ s.baseOffset ≤ p.startOffset := by
      rw [takeWhile_eq_filter, filter_eq_nil_iff] at hprev
      · simpa using hprev
      · refine hseparated.pairwise_base.imp fun hlt => ?_
        simp only [decide_eq_true_eq]
        omega
    have := hall s hs
    have := hseparated.base_le_last s hs
    simp only [decide_eq_true_eq]
    omega
  · rw [segmentsFrom_eq hseparated hprev] at hne ⊢
    rw [hprev]
    have hprev_le : prev.baseOffset ≤ p.startOffset := by
      simpa using mem_takeWhile_imp (mem_of_getLast? hprev)
    by_cases hle : p.startOffset ≤ prev.committedOffset
    · simp [hle, hprev_le]
    · -- there is a segment after `prev`, which cannot begin above the start offset
      rw [if_neg hle] at hne
      obtain ⟨s, rest, hrest⟩ := exists_cons_of_ne_nil hne
      obtain ⟨start, stop, -, hcur⟩ := h.contiguous
      rw [← takeWhile_append_dropWhile (p := fun s : SegmentMeta =>
        decide (s.baseOffset ≤ p.startOffset)) (l := p.segments), hrest] at hcur
      obtain ⟨mid, hbefore, hafter⟩ := hcur.of_append
      have hmid := hbefore.last_add_one_eq hprev
      have hbase := hafter.1
      have hlt := dropWhile_get_zero_not (fun s : SegmentMeta =>
        decide (s.baseOffset ≤ p.startOffset)) p.segments (by simp [hrest])
      simp only [hrest, get_eq_getElem, getElem_cons_zero, decide_eq_true_eq] at hlt
      omega

/-- The bytes of the segments the start offset is moved over are subtracted. -/
theorem Sized.advanceStartOffset (h : p.Sized) (hadvance : p.advanceStartOffset o = some p') :
    p'.Sized := by
  have hseparated := h.contiguous.separated
  obtain ⟨hlt, -, -, heq⟩ := advanceStartOffset_eq_some hseparated hadvance
  have hsegments : p'.segments = p.segments := by rw [heq]
  have hfrom := segmentsFrom_advanceStartOffset hseparated hadvance
  refine ⟨?_, aligned_advanceStartOffset hseparated hadvance, ?_, ?_, fun hnil => ?_, ?_⟩
  · rw [Contiguous, hsegments]
    exact h.contiguous
  · rw [heq]
    exact h.le_lastOffset
  · rw [heq]
    exact h.lt_max
  · -- there are segments when the start offset is moved
    rw [hsegments] at hnil
    simp [PartitionManifest.advanceStartOffset, hnil] at hadvance
  · rw [hfrom, heq]
    by_cases hne : p.segmentsFrom p.startOffset = []
    · have hfrom_o : p.segmentsFrom o = [] := by rw [segmentsFrom_of_le hlt.le, hne]; rfl
      have hzero : p.cloudLogSizeBytes = 0 := by rw [h.size_eq, hne]; rfl
      simp [hzero, hfrom_o, sizeOf]
    · obtain ⟨moved, hmoved⟩ : p.segmentsFrom o <:+ p.segmentsFrom p.startOffset := by
        rw [segmentsFrom_of_le hlt.le]
        exact dropWhile_suffix _
      have hsize := h.size_eq
      rw [← hmoved, sizeOf_append] at hsize
      rw [h.segmentContaining_startOffset hne, ← hmoved, length_append, Nat.add_sub_cancel,
        take_left]
      change p.cloudLogSizeBytes - sizeOf moved = sizeOf (p.segmentsFrom o)
      omega

/-- Truncating takes away segments that are not counted. -/
theorem Sized.truncate (h : p.Sized) : p.truncate.2.Sized := by
  have hseparated := h.contiguous.separated
  rw [segments_truncate hseparated h.aligned]
  have hsublist : (p.segmentsFrom p.startOffset).Sublist p.segments := dropWhile_sublist _
  refine ⟨?_, fun s hs => ?_, fun s hs => h.le_lastOffset s (hsublist.subset hs),
    fun s hs => h.lt_max s (hsublist.subset hs), fun hnil => if_pos hnil, ?_⟩
  · obtain ⟨start, stop, hstart, hcur⟩ := h.contiguous
    rw [← takeWhile_append_dropWhile (p := fun s : SegmentMeta =>
      decide (s.committedOffset < p.startOffset)) (l := p.segments)] at hcur
    obtain ⟨mid, hbefore, hafter⟩ := hcur.of_append
    exact ⟨mid, stop, hstart.trans hbefore.start_le_stop, hafter⟩
  · rw [if_neg (ne_nil_of_mem hs)]
    exact h.aligned s (hsublist.subset hs)
  · rw [h.size_eq]
    refine congrArg sizeOf (dropWhile_eq_self_iff.2 fun hpos => ?_).symm
    have hmem := (mem_segmentsFrom hseparated (o := p.startOffset)).1 (getElem_mem hpos)
    rw [if_neg (ne_nil_of_length_pos hpos)]
    simpa using hmem.2

/-- The segments of a list are added one behind the other. -/
theorem cloudLogSizeBytes_addAll {l : List SegmentMeta}
    (h : Separated baseOffset committedOffset (p.segments ++ l)) :
    (p.addAll l).cloudLogSizeBytes = p.cloudLogSizeBytes + sizeOf l ∧
      (p.addAll l).archiveSizeBytes = p.archiveSizeBytes := by
  induction l generalizing p with
  | nil => exact ⟨rfl, rfl⟩
  | cons m l ih =>
    have hbefore : ∀ s ∈ p.segments, s.committedOffset < m.baseOffset := fun s hs =>
      (pairwise_append.1 h.pairwise).2.2 s hs m mem_cons_self
    have hlt : ∀ s ∈ p.segments, decide (s.baseOffset < m.baseOffset) = true := fun s hs => by
      have := hbefore s hs
      have := h.base_le_last s (mem_append_left _ hs)
      simp only [decide_eq_true_eq]
      omega
    -- the segment stands behind all the others, so it covers none of them
    have hdrop : p.segments.dropWhile (·.baseOffset < m.baseOffset) = [] :=
      dropWhile_eq_nil_iff.2 hlt
    have hcovered :
        covered baseOffset committedOffset m p.segments = [] := by
      rw [covered, hdrop]
      rfl
    have hinsert : insertCovering baseOffset committedOffset m p.segments =
        p.segments ++ [m] := by
      rw [insertCovering, hdrop, takeWhile_eq_self_iff.2 hlt]
      rfl
    have hadd : ¬ p.Refuses m := by
      rintro ⟨s, hs, -⟩
      simp [hcovered] at hs
    have hsize : (p.add m).cloudLogSizeBytes = p.cloudLogSizeBytes + m.sizeBytes := by
      rw [add_of_not_refuses hadd, hcovered]
      rfl
    have hsegments : (p.add m).segments = p.segments ++ [m] := by rw [segments_add hadd, hinsert]
    obtain ⟨ihsize, iharchive⟩ := ih (p := p.add m) (by simpa [hsegments] using h)
    rw [addAll, foldl_cons, ← addAll]
    refine ⟨?_, iharchive.trans archiveSizeBytes_add⟩
    rw [ihsize, hsize, sizeOf, sizeOf, map_cons, sum_cons, Nat.add_assoc]

/-! ## Spillover manifests -/

/-- The segments moved to a spillover manifest: those of its offsets. -/
def spilledBy (p : PartitionManifest) (m : SegmentMeta) : List SegmentMeta :=
  if (p.spillover m).isSome then p.segments.filter m.covers else []

/-- With a spillover manifest accepted, the log begins right after it. -/
theorem startOffset_spillover (h : p.SeparatedSegments)
    (hfind : (p.find o).isSome) (hadvance : p.advanceStartOffset o = some p') :
    p'.startOffset = o := by
  obtain ⟨-, -, hstart, -⟩ := advanceStartOffset_eq_some h hadvance
  obtain ⟨⟨t, rest⟩, ht⟩ := Option.isSome_iff_exists.1 hfind
  obtain ⟨hbase, hsuffix⟩ := find_eq_some ht
  obtain ⟨rest, hrest⟩ := exists_segmentsFrom_eq h (hsuffix.subset mem_cons_self) hbase
  rw [hstart, hrest]
  exact hbase

/-- The segments below the start offset. -/
theorem takeWhile_takeWhile_eq (h : p.SeparatedSegments) (o : Int) :
    (p.segments.takeWhile (·.baseOffset < o)).takeWhile (·.committedOffset < o) =
      p.segments.filter (·.committedOffset < o) := by
  rw [takeWhile_eq_filter, takeWhile_eq_filter, filter_filter]
  · refine filter_congr fun s hs => ?_
    have := h.base_le_last s hs
    rw [Bool.eq_iff_iff]
    simp only [Bool.and_eq_true, decide_eq_true_eq]
    omega
  · refine h.pairwise_base.imp fun hlt => ?_
    simp only [decide_eq_true_eq]
    omega
  · refine (h.pairwise.sublist (takeWhile_sublist _)).imp_of_mem fun hs ht hlt => ?_
    have := h.base_le_last _ ((takeWhile_sublist _).subset ht)
    simp only [decide_eq_true_eq]
    omega

/-- If all segments are counted, a spillover manifest has the segments by which the archive
    grows. -/
theorem Sized.spillover (h : p.Sized) (hall : ∀ s ∈ p.segments, p.startOffset ≤ s.baseOffset)
    (hsafe : p.safeSpilloverManifest m) (hspillover : p.spillover m = some p') :
    p'.Sized ∧ p'.archiveSizeBytes = p.archiveSizeBytes + sizeOf (p.segments.filter m.covers) := by
  have hseparated := h.contiguous.separated
  rw [safeSpilloverManifest, decide_eq_true_eq] at hsafe
  obtain ⟨hbase, hfind, -⟩ := hsafe
  obtain ⟨q, hadvance, rfl⟩ := spillover_eq_some hspillover
  have hq := h.advanceStartOffset hadvance
  have hstart := startOffset_spillover hseparated hfind hadvance
  obtain ⟨-, -, -, heq⟩ := advanceStartOffset_eq_some hseparated hadvance
  have hsegments : q.segments = p.segments := by rw [heq]
  have hqt := hq.truncate
  refine ⟨{ hqt with }, ?_⟩
  -- what is removed are the segments of the spillover manifest
  have hbelow : p.segments.filter (·.committedOffset < nextOffset m.committedOffset) =
      p.segments.filter m.covers := by
    refine filter_congr fun s hs => ?_
    have hbase : p.startOffset = m.baseOffset := by
      rw [getStartOffset] at hbase
      exact Option.some.inj (Option.ite_none_left_eq_some.1 hbase).2
    obtain ⟨⟨t, rest⟩, ht⟩ := Option.isSome_iff_exists.1 hfind
    obtain ⟨htbase, hsuffix⟩ := find_eq_some ht
    have htmem : t ∈ p.segments := hsuffix.subset mem_cons_self
    have := hseparated.base_le_last t htmem
    have := h.lt_max t htmem
    have := hall s hs
    obtain ⟨start, stop, hnonneg, hcur⟩ := h.contiguous
    have := hcur.start_le_base s hs
    have := hcur.base_le_last s hs
    rw [decide_eq_decide]
    rw [nextOffset] at htbase ⊢
    split_ifs at htbase ⊢ <;> omega
  have hremoved : q.truncate.1 = addAll {} (p.segments.filter m.covers) := by
    rw [← hbelow, ← hstart, ← hsegments, ← takeWhile_takeWhile_eq hq.contiguous.separated]
    rfl
  obtain ⟨hsize, harchive⟩ := cloudLogSizeBytes_addAll (p := {}) (l := p.segments.filter m.covers)
    (hseparated.sublist filter_sublist)
  have hqarchive : q.truncate.2.archiveSizeBytes = p.archiveSizeBytes := by
    rw [PartitionManifest.truncate, heq]
  change q.truncate.2.archiveSizeBytes + q.truncate.1.cloudLogSize = _
  rw [hqarchive, hremoved, cloudLogSize, hsize, harchive]
  simp

/-! ## Computing the size -/

theorem accumulate_eq {sizes : List Nat} (h : sizes.sum < 2 ^ 31) :
    accumulate sizes = sizes.sum := by
  have hfold : ∀ (sizes : List Nat) (acc : Nat), acc + sizes.sum < 2 ^ 31 →
      sizes.foldl (fun (acc : Int) (size : Nat) => toInt32 (acc + size)) (acc : Int) =
        ((acc + sizes.sum : Nat) : Int) := by
    intro sizes
    induction sizes with
    | nil => exact fun acc _ => rfl
    | cons size sizes ih =>
      intro acc hlt
      rw [sum_cons] at hlt ⊢
      have hsum : toInt32 (acc + size) = ((acc + size : Nat) : Int) := by
        rw [toInt32]
        omega
      rw [foldl_cons, hsum, ih (acc + size) (by omega), Nat.add_assoc]
  rw [accumulate]
  simpa using hfold sizes 0 (by simpa using h)

/-- The computed size is the counter, if that fits into an `int`. -/
theorem Sized.computeCloudLogSize (h : p.Sized) (hsize : p.cloudLogSizeBytes < 2 ^ 31)
    {s : SegmentMeta} (hs : s ∈ p.segments) (hbase : s.baseOffset = p.startOffset) :
    p.computeCloudLogSize = p.cloudLogSizeBytes := by
  have hseparated := h.contiguous.separated
  -- the first segment that is counted is the one at the start offset
  obtain ⟨rest, hrest⟩ := exists_segmentsFrom_eq hseparated hs hbase
  have hfind : p.find p.startOffset = some (s, rest) := by
    rw [find, segmentsFrom_startOffset hseparated h.aligned, hrest]
    exact if_pos hbase
  have hsize_eq := h.size_eq
  rw [hrest, sizeOf] at hsize_eq
  rw [PartitionManifest.computeCloudLogSize, hfind]
  simp only
  rw [accumulate_eq (hsize_eq ▸ hsize), ← hsize_eq]
  omega

/-- The command changes the size of segments at or above the start offset only. -/
def Counted (p : PartitionManifest) : ArchivalCommand → Prop
  | .addSegment m => 0 ≤ m.baseOffset ∧ m.baseOffset ≤ m.committedOffset ∧
      m.committedOffset < Offset.max ∧ p.startOffset ≤ m.baseOffset
  | .spillover _ => ∀ s ∈ p.segments, p.startOffset ≤ s.baseOffset
  | _ => True

instance (p : PartitionManifest) : DecidablePred p.Counted := fun c => by
  cases c <;> unfold Counted <;> infer_instance

end PartitionManifest

/-! ## Runs -/

/-- A manifest, with the segments that were moved to spillover manifests. -/
structure ManifestHistory where
  manifest : PartitionManifest := {}
  spilled : List SegmentMeta := []

namespace ManifestHistory

variable (h : ManifestHistory)

open PartitionManifest

/-- Applying a command. Segments are added and moved to spillover manifests if they are found
    safe. -/
def next : ArchivalCommand → Option ManifestHistory
  | .addSegment m =>
    if h.manifest.safeSegmentMetaToAdd [m] = 1 then
      some { h with manifest := h.manifest.applyCommand (.addSegment m) }
    else none
  | .spillover m =>
    if h.manifest.safeSpilloverManifest m then
      some ⟨h.manifest.applyCommand (.spillover m), h.spilled ++ h.manifest.spilledBy m⟩
    else none
  | c => some { h with manifest := h.manifest.applyCommand c }

/-- A command that is applied. -/
def Step (c : ArchivalCommand) (h' : ManifestHistory) : Prop :=
  h.next c = some h'

/-- A command that is applied and counts the right segments. -/
def CountedStep (c : ArchivalCommand) (h' : ManifestHistory) : Prop :=
  h.manifest.Counted c ∧ h.Step c h'

/-- Both counters are exact. -/
structure Exact (h : ManifestHistory) : Prop where
  sized : h.manifest.Sized
  archive_eq : h.manifest.archiveSizeBytes = sizeOf h.spilled

variable {h h' : ManifestHistory} {c : ArchivalCommand}

theorem Exact.advanceStartOffset {p : PartitionManifest} {o : Int} (hh : h.Exact)
    (hadvance : h.manifest.advanceStartOffset o = some p) : Exact { h with manifest := p } := by
  obtain ⟨-, -, -, heq⟩ := advanceStartOffset_eq_some hh.sized.contiguous.separated hadvance
  refine ⟨hh.sized.advanceStartOffset hadvance, ?_⟩
  rw [heq]
  exact hh.archive_eq

/-- A command that counts the right segments leaves the counters exact. -/
theorem Exact.next (hh : h.Exact) (hc : h.manifest.Counted c) (hnext : h.next c = some h') :
    h'.Exact := by
  cases c with
  | addSegment m =>
    obtain ⟨hsafe, rfl⟩ := Option.ite_some_none_eq_some.1 hnext
    obtain ⟨hbase, hle, hmax, hstart⟩ := hc
    exact ⟨hh.sized.add hbase hle hmax hstart hsafe, archiveSizeBytes_add.trans hh.archive_eq⟩
  | truncate o =>
    cases hnext
    rcases hadvance : h.manifest.advanceStartOffset o with _ | p
    · simpa [applyCommand, truncateAt, hadvance] using hh
    · have heq : h.manifest.applyCommand (.truncate o) = p.truncate.2 := by
        simp [applyCommand, truncateAt, hadvance]
      have hp := hh.advanceStartOffset hadvance
      simp only [heq]
      exact ⟨hp.sized.truncate, hp.archive_eq⟩
  | updateStartOffset o =>
    cases hnext
    rcases hadvance : h.manifest.advanceStartOffset o with _ | p
    · simpa [applyCommand, hadvance] using hh
    · have heq : h.manifest.applyCommand (.updateStartOffset o) = p := by
        simp [applyCommand, hadvance]
      simp only [heq]
      exact hh.advanceStartOffset hadvance
  | cleanupMetadata =>
    cases hnext
    simp only [applyCommand, applyCleanupMetadata]
    split_ifs with hempty
    · exact hh
    · have hdelete : h.manifest.deleteReplacedSegments.Sized := { hh.sized with }
      exact ⟨hdelete.truncate, hh.archive_eq⟩
  | spillover m =>
    obtain ⟨hsafe, rfl⟩ := Option.ite_some_none_eq_some.1 hnext
    -- the bytes leave the manifest and arrive in the archive
    rcases hspillover : h.manifest.spillover m with _ | p
    · simpa [applyCommand, spilledBy, hspillover] using hh
    · obtain ⟨hp, harchive⟩ := hh.sized.spillover hc hsafe hspillover
      have heq : h.manifest.applyCommand (.spillover m) = p := by
        simp [applyCommand, hsafe, hspillover]
      simp only [heq, spilledBy, hspillover]
      refine ⟨hp, ?_⟩
      rw [harchive, hh.archive_eq]
      exact (sizeOf_append _ _).symm

/-- In all the runs in which no segment is added below the start offset, and none is there when
    others are moved to a spillover manifest, the counters are exact, and so is the computed size
    if it fits into an `int`. -/
theorem size_eq_of_run {cs : List ArchivalCommand} (hrun : Run CountedStep {} cs h) :
    h.manifest.stmRegionSizeBytes =
        sizeOf (h.manifest.segments.filter (h.manifest.startOffset ≤ ·.committedOffset)) ∧
      ((∃ s ∈ h.manifest.segments, s.baseOffset = h.manifest.startOffset) →
        h.manifest.stmRegionSizeBytes < 2 ^ 31 →
        h.manifest.computeCloudLogSize = h.manifest.stmRegionSizeBytes) ∧
      h.manifest.archiveSizeBytes = sizeOf h.spilled := by
  have hexact : h.Exact := hrun.invariant (fun hh hstep => hh.next hstep.1 hstep.2)
    ⟨sized_empty, rfl⟩
  refine ⟨?_, fun ⟨s, hs, hbase⟩ hsize => hexact.sized.computeCloudLogSize hsize hs hbase,
    hexact.archive_eq⟩
  rw [← segmentsFrom_eq_filter hexact.sized.contiguous.separated]
  exact hexact.sized.size_eq

/-- Three segments are added, one of them is re-uploaded and another one moved to a spillover
    manifest. -/
def countedRun : List ArchivalCommand :=
  [.addSegment (segmentOf 0 9 100), .addSegment (segmentOf 10 19 100),
    .addSegment (segmentOf 20 29 100), .updateStartOffset 15, .cleanupMetadata,
    .addSegment (segmentOf 20 29 70), .spillover (segmentOf 10 19 100)]

theorem size_eq_of_run_countedRun :
    ∃ h, Run CountedStep {} countedRun h ∧
      h.manifest.stmRegionSizeBytes = 70 ∧ h.manifest.computeCloudLogSize = 70 ∧
      h.manifest.archiveSizeBytes = 100 ∧
      h.manifest.stmRegionSizeBytes =
        sizeOf (h.manifest.segments.filter (h.manifest.startOffset ≤ ·.committedOffset)) ∧
      h.manifest.archiveSizeBytes = sizeOf h.spilled := by
  have heval : (countedRun.foldlM (fun (h : ManifestHistory) c =>
      if h.manifest.Counted c then h.next c else none) {}).map (fun h =>
        (h.manifest.stmRegionSizeBytes, h.manifest.computeCloudLogSize,
          h.manifest.archiveSizeBytes)) = some (70, 70, 100) := by decide
  obtain ⟨h, hrun, hobs⟩ := Run.exists_of_foldlM heval
  simp only [Prod.mk.injEq] at hobs
  obtain ⟨hsize, -, harchive⟩ := size_eq_of_run (hrun : Run CountedStep {} countedRun h)
  exact ⟨h, hrun, hobs.1, hobs.2.1, hobs.2.2, hsize, harchive⟩

/-- A segment below the start offset is re-uploaded: its size is counted, though it is not part of
    the log. Segments below the start offset are counted as archived. The computed size of a
    segment of 3 GiB is not its size. -/
theorem exists_run_size_ne :
    (∃ h, Run Step {}
        [.addSegment (segmentOf 0 9 100), .addSegment (segmentOf 10 19 100),
          .updateStartOffset 10, .addSegment (segmentOf 0 9 170)] h ∧
      (h.manifest.stmRegionSizeBytes,
        sizeOf (h.manifest.segments.filter (h.manifest.startOffset ≤ ·.committedOffset))) =
          (170, 100)) ∧
    (∃ h, Run Step {}
        [.addSegment (segmentOf 0 9 100), .addSegment (segmentOf 10 19 100),
          .addSegment (segmentOf 20 29 100), .updateStartOffset 10,
          .spillover (segmentOf 10 19 100)] h ∧
      (h.manifest.archiveSizeBytes, sizeOf h.spilled) = (200, 100)) ∧
    ∃ h, Run Step {} [.addSegment (segmentOf 0 9 (3 * 2 ^ 30))] h ∧
      (h.manifest.segments.map baseOffset = [h.manifest.startOffset] ∧
        h.manifest.stmRegionSizeBytes = 3 * 2 ^ 30 ∧
        h.manifest.computeCloudLogSize = 2 ^ 64 - 2 ^ 30) := by
  refine ⟨Run.exists_of_map_foldlM (by decide), Run.exists_of_map_foldlM (by decide), ?_⟩
  have heval : (foldlM next {} [.addSegment (segmentOf 0 9 (3 * 2 ^ 30))]).map (fun h =>
      (h.manifest.segments.map baseOffset, h.manifest.startOffset,
        h.manifest.stmRegionSizeBytes, h.manifest.computeCloudLogSize)) =
      some ([0], 0, 3 * 2 ^ 30, 2 ^ 64 - 2 ^ 30) := by decide
  obtain ⟨h, hrun, hobs⟩ := Run.exists_of_map_foldlM heval
  simp only [Prod.mk.injEq] at hobs
  obtain ⟨hbases, hstart, hsize, hcompute⟩ := hobs
  exact ⟨h, hrun, by rw [hbases, hstart], hsize, hcompute⟩

end ManifestHistory

end Redpanda.CloudStorage
