import Redpanda.CloudStorage.ArchivalMetadataStm
import Redpanda.Lib.Run

/-!
# Objects that are cleaned up

The objects to be deleted from cloud storage are found by `get_segments_to_cleanup`. None of them
may be the object of a segment of the log, which is known by its name, and forgetting the
segments below the start offset may not take away others.

This can go wrong in two ways (`exists_run_cleanup`). A re-upload of segments on both sides of the
start offset is removed from the manifest by the next cleanup, since it begins below the start
offset. And with two segments of the same base offset a name is compared to that of one of them
only. In all the runs in which no segment is added that cuts another one or reaches over the start
offset (`KeepsWhole`) the log is safe (`not_cleaned_of_run`).
-/

namespace Redpanda.CloudStorage

open Model Lib List

namespace PartitionManifest

variable {p p' : PartitionManifest} {m : SegmentMeta} {o : Int}

/-- The segments do not overlap, and the start offset is not inside one of them. -/
structure Whole (p : PartitionManifest) : Prop where
  separated : p.SeparatedSegments
  aligned : p.Aligned
  base_nonneg : ∀ s ∈ p.segments, 0 ≤ s.baseOffset
  start_nonneg : p.segments ≠ [] → 0 ≤ p.startOffset
  start_eq_min : p.segments = [] → p.startOffset = Offset.min

theorem whole_empty : Whole {} where
  separated := .nil
  aligned _ hs := absurd hs not_mem_nil
  base_nonneg _ hs := absurd hs not_mem_nil
  start_nonneg h := absurd rfl h
  start_eq_min _ := rfl

/-- A segment that is added is already there, or it cuts no other segment and does not reach over
    the start offset. -/
def KeepsWhole (p : PartitionManifest) : ArchivalCommand → Prop
  | .addSegment m => p.Refuses m ∨
      (0 ≤ m.baseOffset ∧ m.baseOffset ≤ m.committedOffset) ∧
        (∀ s ∈ p.segments, ¬ Cuts SegmentMeta.baseOffset SegmentMeta.committedOffset m s) ∧
        (m.committedOffset < p.startOffset ∨ p.startOffset ≤ m.baseOffset)
  | _ => True

instance (p : PartitionManifest) : DecidablePred p.KeepsWhole := fun c => by
  induction c using ArchivalCommand.casesOn <;> unfold KeepsWhole <;> infer_instance

namespace Whole

variable (h : p.Whole)

include h

theorem add (hm : p.KeepsWhole (.addSegment m)) : (p.add m).Whole := by
  by_cases hrefuses : p.Refuses m
  · obtain ⟨moved, heq⟩ := add_of_refuses hrefuses
    rw [heq]
    exact { h with }
  obtain ⟨⟨hbase, hle⟩, hcut, hstart⟩ := hm.resolve_left hrefuses
  have hsegments := segments_add hrefuses
  have hmem : ∀ s ∈ (p.add m).segments, s = m ∨ s ∈ p.segments := fun s hs =>
    mem_of_mem_insertCovering (hsegments ▸ hs)
  have hne : (p.add m).segments ≠ [] := by
    rw [hsegments, insertCovering]
    simp
  -- the log begins with the segment if it is the first one
  have hstart' : p.segments = [] ∧ (p.add m).startOffset = m.baseOffset ∨
      p.segments ≠ [] ∧ (p.add m).startOffset = p.startOffset := by
    rw [add_of_not_refuses hrefuses, startAt]
    by_cases hnil : p.segments = []
    · exact .inl ⟨hnil, by simp [hnil, h.start_eq_min hnil]⟩
    · exact .inr ⟨hnil, by simp [hnil]⟩
  refine ⟨?_, fun s hs => ?_, fun s hs => ?_, fun _ => ?_, fun hnil => absurd hnil hne⟩
  · rw [SeparatedSegments, hsegments]
    exact h.separated.insertCovering hle hcut
  · rcases hstart' with ⟨hnil, heq⟩ | ⟨-, heq⟩
    · obtain rfl := (hmem s hs).resolve_right (by simp [hnil])
      exact .inr heq.le
    · rw [heq]
      rcases hmem s hs with rfl | hs
      · exact hstart
      · exact h.aligned s hs
  · rcases hmem s hs with rfl | hs
    · exact hbase
    · exact h.base_nonneg s hs
  · rcases hstart' with ⟨-, heq⟩ | ⟨hp, heq⟩
    · rw [heq]
      exact hbase
    · rw [heq]
      exact h.start_nonneg hp

theorem advanceStartOffset (hadvance : p.advanceStartOffset o = some p') : p'.Whole := by
  obtain ⟨hlt, hle, -, heq⟩ := advanceStartOffset_eq_some h.separated hadvance
  have hsegments : p'.segments = p.segments := by rw [heq]
  have hne : p.segments ≠ [] := fun hnil => by
    simp [PartitionManifest.advanceStartOffset, hnil] at hadvance
  refine ⟨?_, aligned_advanceStartOffset h.separated hadvance, ?_, fun _ => ?_, fun hnil => ?_⟩
  · rw [SeparatedSegments, hsegments]
    exact h.separated
  · rw [hsegments]
    exact h.base_nonneg
  · exact (h.start_nonneg hne).trans hle
  · exact absurd (hsegments ▸ hnil) hne

theorem truncate : p.truncate.2.Whole := by
  rw [segments_truncate h.separated h.aligned]
  have hsublist : (p.segmentsFrom p.startOffset).Sublist p.segments := dropWhile_sublist _
  refine ⟨h.separated.sublist hsublist, fun s hs => ?_,
    fun s hs => h.base_nonneg s (hsublist.subset hs), fun hne => ?_, fun hnil => if_pos hnil⟩
  · rw [if_neg (ne_nil_of_mem hs)]
    exact h.aligned s (hsublist.subset hs)
  · rw [if_neg hne]
    refine h.start_nonneg fun hnil => hne ?_
    rw [hnil] at hsublist
    exact sublist_nil.1 hsublist

/-- Every command that keeps the segments whole. -/
theorem applyCommand {c : ArchivalCommand} (hc : p.KeepsWhole c) : (p.applyCommand c).Whole := by
  cases c with
  | addSegment m => exact h.add hc
  | truncate o =>
    rw [PartitionManifest.applyCommand, truncateAt]
    rcases hadvance : p.advanceStartOffset o with _ | q
    · exact h
    · exact (h.advanceStartOffset hadvance).truncate
  | updateStartOffset o =>
    rw [PartitionManifest.applyCommand]
    rcases hadvance : p.advanceStartOffset o with _ | q
    · exact h
    · exact h.advanceStartOffset hadvance
  | cleanupMetadata =>
    rw [PartitionManifest.applyCommand, applyCleanupMetadata]
    split_ifs
    · exact h
    · have hdelete : p.deleteReplacedSegments.Whole :=
        { h with }
      exact hdelete.truncate
  | spillover m =>
    rw [PartitionManifest.applyCommand]
    split_ifs
    · rcases hspillover : p.spillover m with _ | p'
      · exact h
      · obtain ⟨q, hadvance, rfl⟩ := spillover_eq_some hspillover
        have hq := (h.advanceStartOffset hadvance).truncate
        exact { hq with }
    · exact h

variable {s : SegmentMeta}

/-- A segment is found by its base offset. -/
theorem find_baseOffset (hs : s ∈ p.segments) : ∃ rest, p.find s.baseOffset = some (s, rest) := by
  have hmem : s ∈ p.segments.dropWhile (·.baseOffset < s.baseOffset) := by
    rw [dropWhile_eq_filter]
    · simpa using hs
    · refine h.separated.pairwise_base.imp fun hlt => ?_
      simp only [decide_eq_true_eq]
      omega
  obtain ⟨t, rest, hrest⟩ := exists_cons_of_ne_nil (ne_nil_of_mem hmem)
  have htmem : t ∈ p.segments := (dropWhile_sublist _).subset (by rw [hrest]; simp)
  have hle := dropWhile_get_zero_not (fun t : SegmentMeta =>
    decide (t.baseOffset < s.baseOffset)) p.segments (by simp [hrest])
  simp only [hrest, get_eq_getElem, getElem_cons_zero, decide_eq_true_eq] at hle
  have hst : t = s := by
    rw [hrest] at hmem
    rcases mem_cons.1 hmem with rfl | hmem
    · rfl
    · have hpairwise := h.separated.pairwise_base.sublist
        (hrest ▸ dropWhile_sublist (fun t : SegmentMeta =>
          decide (t.baseOffset < s.baseOffset)) : (t :: rest).Sublist p.segments)
      have := (pairwise_cons.1 hpairwise).1 s hmem
      omega
  refine ⟨rest, ?_⟩
  rw [find, hrest, hst]
  exact if_pos rfl

/-- What is cleaned up does not have the name of a segment from the start offset on. -/
theorem name_ne {lw : LwSegmentMeta} (hlw : lw ∈ p.getSegmentsToCleanup)
    (hs : s ∈ p.segments) (hstart : p.startOffset ≤ s.committedOffset) :
    generateRemoteSegmentName lw.toSegmentMeta ≠ generateRemoteSegmentName s := by
  intro hname
  rw [getSegmentsToCleanup, mem_append] at hlw
  rcases hlw with hlw | hlw
  · -- a replaced segment
    have hunused := (mem_filter.1 hlw).2
    obtain ⟨rest, hfind⟩ := h.find_baseOffset hs
    have hbase : lw.baseOffset = s.baseOffset := baseOffset_eq_of_name_eq hname
    rw [isUnused, hbase, hfind] at hunused
    simp [hname] at hunused
  · -- a segment below the start offset
    obtain ⟨t, ht, rfl⟩ := mem_map.1 hlw
    rw [generateRemoteSegmentName_convert] at hname
    have hst := h.separated.eq_of_base_eq ((takeWhile_sublist _).subset ht) hs
      (baseOffset_eq_of_name_eq hname)
    have hnonneg := h.start_nonneg (ne_nil_of_mem hs)
    have hget : p.getStartOffset = some p.startOffset := by
      rw [getStartOffset, if_neg]
      rw [Offset.min]
      omega
    have hlt := mem_takeWhile_imp ht
    rw [hget, Option.getD_some, decide_eq_true_eq, hst] at hlt
    omega

/-- A cleanup does not take away segments from the start offset on. -/
theorem mem_applyCleanupMetadata (hs : s ∈ p.segments)
    (hstart : p.startOffset ≤ s.committedOffset) : s ∈ p.applyCleanupMetadata.segments := by
  rw [applyCleanupMetadata]
  split_ifs
  · exact hs
  · have htruncate := segments_truncate (p := p.deleteReplacedSegments) h.separated h.aligned
    rw [htruncate]
    exact (mem_segmentsFrom (p := p.deleteReplacedSegments) h.separated).2 ⟨hs, hstart⟩

end Whole

/-! ## Runs -/

/-- A command is applied. -/
def CommandStep (p : PartitionManifest) (c : ArchivalCommand) (p' : PartitionManifest) : Prop :=
  some (p.applyCommand c) = some p'

/-- A command is applied that keeps the segments whole. -/
def WholeStep (p : PartitionManifest) (c : ArchivalCommand) (p' : PartitionManifest) : Prop :=
  p.KeepsWhole c ∧ p.CommandStep c p'

/-- In all the runs in which the segments are kept whole, nothing is cleaned up that has the name
    of a segment from the start offset on, and these segments stay in the manifest. -/
theorem not_cleaned_of_run {cs : List ArchivalCommand} (hrun : Run WholeStep {} cs p) :
    (∀ lw ∈ p.getSegmentsToCleanup, ∀ s ∈ p.segments, p.startOffset ≤ s.committedOffset →
      generateRemoteSegmentName lw.toSegmentMeta ≠ generateRemoteSegmentName s) ∧
    ∀ s ∈ p.segments, p.startOffset ≤ s.committedOffset →
      s ∈ p.applyCleanupMetadata.segments := by
  have hwhole : p.Whole := hrun.invariant (fun h hstep => by
    obtain ⟨hc, hstep⟩ := hstep
    cases hstep
    exact h.applyCommand hc) whole_empty
  exact ⟨fun lw hlw s hs hstart => hwhole.name_ne hlw hs hstart,
    fun s hs hstart => hwhole.mem_applyCleanupMetadata hs hstart⟩

/-- A segment with the first format of its name. -/
def segmentOfV1 (base committed : Int) (size : Nat) : SegmentMeta :=
  { segmentOf base committed size with snameFormat := .v1 }

/-- Two segments, of which the first one is re-uploaded and then below the start offset. -/
def wholeRun : List ArchivalCommand :=
  [.addSegment (segmentOfV1 0 9 100), .addSegment (segmentOf 10 19 100),
    .addSegment (segmentOf 0 9 70), .updateStartOffset 10]

theorem not_cleaned_of_run_wholeRun :
    ∃ p, Run WholeStep {} wholeRun p ∧
      p.getSegmentsToCleanup = [.convert (segmentOfV1 0 9 100), .convert (segmentOf 0 9 70)] ∧
      segmentOf 10 19 100 ∈ p.applyCleanupMetadata.segments := by
  have heval : (wholeRun.foldlM (fun p c => if KeepsWhole p c then some (p.applyCommand c) else none)
      {}).map (fun p => (p.getSegmentsToCleanup, p.segments, p.startOffset)) =
        some ([.convert (segmentOfV1 0 9 100), .convert (segmentOf 0 9 70)],
          [segmentOf 0 9 70, segmentOf 10 19 100], 10) := by decide
  obtain ⟨p, hrun, hobs⟩ := Run.exists_of_foldlM heval
  simp only [Prod.mk.injEq] at hobs
  obtain ⟨hcleanup, hsegments, hstart⟩ := hobs
  have hrun : Run WholeStep {} wholeRun p := hrun
  refine ⟨p, hrun, hcleanup, (not_cleaned_of_run hrun).2 _ ?_ ?_⟩
  · simp [hsegments]
  · rw [hstart]
    decide

/-- A re-upload over the start offset, which is found safe, is taken away by the cleanup. With two
    segments of the same base offset the name of one of them is cleaned up. -/
theorem exists_run_cleanup :
    (∃ p, Run CommandStep {} [.addSegment (segmentOf 0 9 100), .addSegment (segmentOf 10 19 100),
        .updateStartOffset 10] p ∧
      (p.safeSegmentMetaToAdd [segmentOf 0 19 150],
        (p.add (segmentOf 0 19 150)).segments, (p.add (segmentOf 0 19 150)).startOffset,
        (p.add (segmentOf 0 19 150)).applyCleanupMetadata.segments) =
          (1, [segmentOf 0 19 150], 10, [])) ∧
    ∃ p, Run CommandStep {} [.addSegment (segmentOfV1 0 9 100), .addSegment (segmentOf 0 9 70),
        .addSegment (segmentOfV1 0 9 100), .addSegment (segmentOf 0 4 40)] p ∧
      (p.segments, p.startOffset, p.getSegmentsToCleanup) =
        ([segmentOf 0 4 40, segmentOfV1 0 9 100], 0,
          [.convert (segmentOfV1 0 9 100), .convert (segmentOf 0 9 70)]) := by
  have hrun : ∀ cs p, cs.foldlM (fun p c => some (applyCommand p c)) {} = some p →
      Run CommandStep {} cs p := fun cs p h => Run.of_foldlM h
  exact ⟨⟨_, hrun _ _ rfl, by decide⟩, ⟨_, hrun _ _ rfl, by decide⟩⟩

end PartitionManifest

end Redpanda.CloudStorage
