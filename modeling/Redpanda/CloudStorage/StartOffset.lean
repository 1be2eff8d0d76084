import Redpanda.CloudStorage.ContiguousManifest

/-!
# The start offset of a manifest

Segments below the start offset stay in the manifest until they are cleaned up. The start offset is
moved to the beginning of a segment, or beyond all of them (`advanceStartOffset_eq_some`), and so it
is never inside a segment (`Aligned`), unless a segment is added that reaches over it. Truncating
the manifest then takes away exactly the segments below the start offset (`segments_truncate`).
-/

namespace Redpanda.CloudStorage

open Model Lib List

namespace PartitionManifest

variable (p : PartitionManifest)

/-- The segments that are not below an offset. -/
def segmentsFrom (o : Int) : List SegmentMeta :=
  p.segments.dropWhile (·.committedOffset < o)

/-- No segment has offsets on both sides of the start offset. -/
def Aligned : Prop :=
  ∀ s ∈ p.segments, s.committedOffset < p.startOffset ∨ p.startOffset ≤ s.baseOffset

/-- The segments of the manifest do not overlap, and hold offsets. -/
abbrev SeparatedSegments : Prop :=
  Separated SegmentMeta.baseOffset SegmentMeta.committedOffset p.segments

variable {p p' : PartitionManifest} {o : Int}

section Separated

variable (h : p.SeparatedSegments)

include h

theorem segmentsFrom_eq_filter (o : Int) :
    p.segmentsFrom o = p.segments.filter (o ≤ ·.committedOffset) := by
  rw [segmentsFrom, dropWhile_eq_filter]
  · refine filter_congr fun s _ => ?_
    rw [← decide_not, decide_eq_decide, not_lt]
  · refine h.pairwise.imp_of_mem fun hs ht hlt => ?_
    have := h.base_le_last _ ht
    simp only [decide_eq_true_eq]
    omega

variable {s : SegmentMeta}

theorem mem_segmentsFrom : s ∈ p.segmentsFrom o ↔ s ∈ p.segments ∧ o ≤ s.committedOffset := by
  rw [segmentsFrom_eq_filter h, mem_filter, decide_eq_true_eq]

/-- The first of the segments from an offset on is below the others. -/
theorem lt_base_of_segmentsFrom {rest : List SegmentMeta} (hrest : p.segmentsFrom o = s :: rest) :
    ∀ t ∈ rest, s.committedOffset < t.baseOffset := by
  have hsublist : (s :: rest).Sublist p.segments := hrest ▸ dropWhile_sublist _
  exact (pairwise_cons.1 (h.pairwise.sublist hsublist)).1

/-- The segments from an offset on, found by their base offsets. -/
theorem segmentsFrom_eq {prev : SegmentMeta}
    (hprev : (p.segments.takeWhile (·.baseOffset ≤ o)).getLast? = some prev) :
    p.segmentsFrom o =
      if o ≤ prev.committedOffset then prev :: p.segments.dropWhile (·.baseOffset ≤ o)
      else p.segments.dropWhile (·.baseOffset ≤ o) := by
  obtain ⟨before, hbefore⟩ := getLast?_eq_some_iff.1 hprev
  have hsegments : p.segments = before ++ prev :: p.segments.dropWhile (·.baseOffset ≤ o) := by
    rw [← singleton_append, ← append_assoc, ← hbefore, takeWhile_append_dropWhile]
  have hprev_le : prev.baseOffset ≤ o := by
    have : prev ∈ p.segments.takeWhile (·.baseOffset ≤ o) := by simp [hbefore]
    simpa using mem_takeWhile_imp this
  -- the segments before `prev` are below its base offset
  have hlt : ∀ s ∈ before, decide (s.committedOffset < o) = true := by
    intro s hs
    have hpairwise := h.pairwise
    rw [hsegments] at hpairwise
    have := (pairwise_append.1 hpairwise).2.2 s hs prev mem_cons_self
    simp only [decide_eq_true_eq]
    omega
  rw [segmentsFrom, congrArg (dropWhile _) hsegments, dropWhile_append_of_pos hlt]
  split_ifs with hle
  · rw [dropWhile_cons_of_neg (by simpa using hle)]
  · rw [dropWhile_cons_of_pos (by simpa using hle)]
    refine dropWhile_eq_self_iff.2 fun hpos => ?_
    have hbase := dropWhile_get_zero_not (·.baseOffset ≤ o) p.segments hpos
    have := h.base_le_last _ ((dropWhile_sublist _).subset (getElem_mem hpos))
    simp only [get_eq_getElem, decide_eq_true_eq] at hbase ⊢
    omega

/-- The first segments from an offset on begin where no segment has an offset before. -/
theorem lt_or_le_base_of_head? (hs : (p.segmentsFrom o).head? = some s) :
    ∀ t ∈ p.segments, t.committedOffset < s.baseOffset ∨ s.baseOffset ≤ t.baseOffset := by
  obtain ⟨rest, hrest⟩ := head?_eq_some_iff.1 hs
  have hsegments : p.segments =
      p.segments.takeWhile (·.committedOffset < o) ++ s :: rest := by
    rw [← hrest, segmentsFrom, takeWhile_append_dropWhile]
  have hpairwise := h.pairwise
  rw [hsegments, pairwise_append, pairwise_cons] at hpairwise
  intro t ht
  rw [hsegments, mem_append, mem_cons] at ht
  rcases ht with ht | rfl | ht
  · exact .inl (hpairwise.2.2 t ht s mem_cons_self)
  · exact .inr le_rfl
  · have := hpairwise.2.1.1 t ht
    have := h.base_le_last s (by rw [hsegments]; simp)
    exact .inr (by omega)

/-- The start offset is moved forward, to the first segment that is not below the new one. -/
theorem advanceStartOffset_eq_some (hadvance : p.advanceStartOffset o = some p') :
    p.startOffset < o ∧ p.startOffset ≤ p'.startOffset ∧
      p'.startOffset = ((p.segmentsFrom o).head?.map SegmentMeta.baseOffset).getD o ∧
      p' = { p with
        startOffset := p'.startOffset
        cloudLogSizeBytes := p.cloudLogSizeBytes -
          ((((p.segmentContaining p.startOffset).getD p.segments).take
            (((p.segmentContaining p.startOffset).getD p.segments).length -
              (p.segmentsFrom o).length)).map SegmentMeta.sizeBytes).sum } := by
  have hfold : ∀ (l : List SegmentMeta) (p : PartitionManifest),
      l.foldl (fun p s => p.subtractFromCloudLogSize s.sizeBytes) p =
        { p with
          cloudLogSizeBytes := p.cloudLogSizeBytes - (l.map SegmentMeta.sizeBytes).sum } := by
    intro l
    induction l with
    | nil => exact fun p => rfl
    | cons s l ih =>
      intro p
      rw [foldl_cons, ih, map_cons, sum_cons, ← Nat.sub_sub]
      rfl
  rw [advanceStartOffset] at hadvance
  obtain ⟨hlt, hadvance⟩ := Option.ite_none_right_eq_some.1 hadvance
  rcases hprev : (p.segments.takeWhile (·.baseOffset ≤ o)).getLast? with _ | prev
  · rw [hprev] at hadvance
    exact absurd hadvance (Option.some_ne_none _).symm
  · simp only [hprev, ← segmentsFrom_eq h hprev, hfold] at hadvance
    obtain ⟨hle, hadvance⟩ := Option.ite_none_left_eq_some.1 hadvance
    cases hadvance
    exact ⟨hlt, not_lt.1 hle, rfl, rfl⟩

/-- A start offset moved forward is at the beginning of a segment or beyond all of them. -/
theorem aligned_advanceStartOffset (hadvance : p.advanceStartOffset o = some p') : p'.Aligned := by
  obtain ⟨-, -, hstart, heq⟩ := advanceStartOffset_eq_some h hadvance
  have hsegments : p'.segments = p.segments := by rw [heq]
  rw [Aligned, hsegments, hstart]
  rcases hhead : (p.segmentsFrom o).head? with _ | s
  · -- all the segments are below
    intro s hs
    have : s ∉ p.segmentsFrom o := by simp [head?_eq_none_iff.1 hhead]
    rw [mem_segmentsFrom h, not_and, not_le] at this
    exact .inl (this hs)
  · exact lt_or_le_base_of_head? h hhead

theorem segmentsFrom_startOffset (hp : p.Aligned) :
    p.segments.dropWhile (·.baseOffset < p.startOffset) = p.segmentsFrom p.startOffset := by
  rw [segmentsFrom_eq_filter h, dropWhile_eq_filter]
  · refine filter_congr fun s hs => ?_
    have := hp s hs
    have := h.base_le_last s hs
    rw [← decide_not, decide_eq_decide]
    omega
  · refine h.pairwise_base.imp fun hlt => ?_
    simp only [decide_eq_true_eq]
    omega

/-- Truncating takes away the segments below the start offset. -/
theorem segments_truncate (hp : p.Aligned) :
    p.truncate.2 = { p with
      segments := p.segmentsFrom p.startOffset
      startOffset := if p.segmentsFrom p.startOffset = [] then Offset.min else p.startOffset } := by
  rw [truncate]
  simp only [segmentsFrom_startOffset h hp]

end Separated

end PartitionManifest

end Redpanda.CloudStorage
