import Redpanda.LevelOne.State

/-!
# Dirty ranges

The offsets of a log that no compaction has cleaned yet. Both implementations of the metastore
compute them as the gaps between the cleaned ranges (`dirtyRanges`), going up from the start
of the log. This is right as long as the cleaned ranges touch the log (`CompactedLog.Sound`):
the first of them does not end below its start, and the last one does not begin above its end.

* `CompactedLog.mem_dirtyRanges`: the dirty offsets are those of the log that are not cleaned;
* `CompactedLog.Step`: what the updates of a metastore do to a log;
* `CompactedLog.Sound.step`: the updates keep the cleaned ranges in touch with the log, if
  the ranges of a compaction are.
-/

namespace Redpanda.LevelOne

open Model Container List

namespace OffsetIntervalSet

/-- `offset_interval_set::covers`. -/
def covers (s : OffsetIntervalSet) (start last : Int) : Bool :=
  (s.intervals.find? fun i => i.1 ≤ start ∧ start < i.2).any fun i => i.1 ≤ start ∧ last < i.2

theorem mem_insertRange {s : OffsetIntervalSet} {base last o : Int} :
    o ∈ (insertRange s base last).1 ↔ (base ≤ o ∧ o ≤ last) ∨ o ∈ s := by
  rw [insertRange, IntervalSet.mem_insert]
  refine or_congr_left ?_
  omega

end OffsetIntervalSet

open OffsetIntervalSet

/-! ## What is computed -/

/-- The gaps between ranges, from a candidate for the first offset of a gap on. The
    candidate after the last range is also returned. -/
def gapsFrom (dirty : OffsetIntervalSet) (dirtyBaseCandidate : Int) :
    List Interval → OffsetIntervalSet × Int
  | [] => (dirty, dirtyBaseCandidate)
  | cleaned :: ranges =>
    gapsFrom
      (if dirtyBaseCandidate < cleaned.baseOffset then
        (insertRange dirty dirtyBaseCandidate (prevOffset cleaned.baseOffset)).1
      else dirty)
      (nextOffset cleaned.lastOffset) ranges

/-- The ranges of a log up to `lastOffset` that are not cleaned. -/
def dirtyRanges (startOffset lastOffset : Int) (cleaned : OffsetIntervalSet) : OffsetIntervalSet :=
  let gaps := gapsFrom .empty startOffset (toVec cleaned)
  if gaps.2 ≤ lastOffset then (insertRange gaps.1 gaps.2 lastOffset).1 else gaps.1

/-- The ranges from which tombstones may be removed. -/
def removableTombstoneRanges (ranges : List TombstoneRange) (upperBound : Int) :
    OffsetIntervalSet :=
  (ranges.filter (·.cleanedWithTombstonesAt ≤ upperBound)).foldl
    (fun s r => (insertRange s r.baseOffset r.lastOffset).1) .empty

variable (startOffset : Int) (cleaned : OffsetIntervalSet) (extents : List Extent)

/-- Adding a range cleaned by a compaction. -/
def insertCleaned (r : CleanedRange) : OffsetIntervalSet :=
  (insertRange cleaned r.baseOffset r.lastOffset).1

structure CompactionOffsetsResponse where
  dirtyRanges : OffsetIntervalSet := .empty
  removableTombstoneRanges : OffsetIntervalSet := .empty

/-- What both implementations return for a log. Without a compaction state, all of it is
    dirty. -/
def compactionOffsets (startOffset nextOffset : Int) (state : Option CompactionState)
    (upperBound : Int) : CompactionOffsetsResponse :=
  if nextOffset ≤ startOffset then {}
  else match state with
    | none => { dirtyRanges := (insertRange .empty startOffset (prevOffset nextOffset)).1 }
    | some state =>
      { dirtyRanges := dirtyRanges startOffset (prevOffset nextOffset) state.cleanedRanges
        removableTombstoneRanges :=
          removableTombstoneRanges state.cleanedRangesWithTombstones upperBound }

/-- The extents with offsets that are not cleaned. One that begins below the start of the
    log counts from there on. -/
def dirtyExtents : List Extent :=
  extents.filter fun e => ¬ covers cleaned (max e.baseOffset startOffset) e.lastOffset

/-- The part of the data that is in dirty extents, not rounded to a `double`. -/
def dirtyRatioOf : Rat :=
  let totalSize := (extents.map (·.len)).sum
  let dirtySize := ((dirtyExtents startOffset cleaned extents).map (·.len)).sum
  if totalSize = 0 then 0 else dirtySize / totalSize

/-- The least timestamp of dirty extents. -/
def earliestDirtyTsOf : Option Int :=
  ((dirtyExtents startOffset cleaned extents).map (·.maxTimestamp)).min?

/-! ## Logs with cleaned ranges -/

/-- What a compaction has to know of a partition: the ends of its log, and the offsets that
    have been cleaned. -/
structure CompactedLog where
  startOffset : Int
  nextOffset : Int
  cleaned : OffsetIntervalSet

namespace CompactedLog

variable (log : CompactedLog)

/-- The log of a new partition. -/
def init : CompactedLog := ⟨0, 0, .empty⟩

/-- An offset of the log that has not been cleaned. -/
def IsDirty (o : Int) : Prop :=
  log.startOffset ≤ o ∧ o < log.nextOffset ∧ o ∉ log.cleaned

/-- A range that touches the log: it does not end below its start, and does not begin above
    its end. -/
def Touches (base last : Int) : Prop :=
  log.startOffset ≤ Model.nextOffset last ∧ base ≤ log.nextOffset
  deriving Decidable

/-- The cleaned ranges touch the log. -/
structure Sound (log : CompactedLog) : Prop where
  start_nonneg : 0 ≤ log.startOffset
  start_le_next : log.startOffset ≤ log.nextOffset
  next_le_max : log.nextOffset ≤ Offset.max
  touches : ∀ i ∈ log.cleaned.intervals, log.Touches i.1 (i.2 - 1)

/-- The ranges of a compaction are cleaned. -/
def clean (ranges : List CleanedRange) : CompactedLog :=
  { log with cleaned := ranges.foldl insertCleaned log.cleaned }

/-- What an update does to the log of a partition. -/
inductive Step (log : CompactedLog) : CompactedLog → Prop
  | refl : Step log log
  | append {next : Int} : log.nextOffset ≤ next → next ≤ Offset.max →
      Step log { log with nextOffset := next }
  | clean {ranges : List CleanedRange} :
      (∀ r ∈ ranges, log.Touches r.baseOffset r.lastOffset) → Step log (log.clean ranges)
  | truncate {start : Int} : log.startOffset < start → start ≤ log.nextOffset →
      Step log { log with
        startOffset := start
        cleaned := truncateWithNewStartOffset log.cleaned start }
  | remove : Step log init

end CompactedLog

/-! ## The gaps between cleaned ranges -/

/-- The gaps up to the last range, together with the offsets from the last candidate to the
    end of the log, are the offsets from the first candidate on that are in no range. -/
theorem mem_gapsFrom {l : List (Int × Int)} (hl : Separated l) (dirty : OffsetIntervalSet)
    {candidate next o : Int} (hcandidate : 0 ≤ candidate) (hnext : next ≤ Offset.max)
    (h : ∀ i ∈ l, candidate ≤ nextOffset (i.2 - 1) ∧ i.1 ≤ next) :
    (o ∈ (gapsFrom dirty candidate (l.map fun i => ⟨i.1, i.2 - 1⟩)).1 ∨
        (gapsFrom dirty candidate (l.map fun i => ⟨i.1, i.2 - 1⟩)).2 ≤ o ∧ o < next) ↔
      o ∈ dirty ∨ candidate ≤ o ∧ o < next ∧ ¬ Covered l o := by
  induction l generalizing dirty candidate with
  | nil => simp [gapsFrom]
  | cons i l ih =>
    obtain ⟨b, e⟩ := i
    obtain ⟨⟨hend, hbegin⟩, h⟩ := forall_mem_cons.1 h
    have hlt : b < e := hl.nonempty _ mem_cons_self
    have hgaps : ∀ j ∈ l, e < j.1 := (pairwise_cons.1 hl.gaps).1
    have hafter : ∀ j ∈ l, nextOffset (e - 1) ≤ nextOffset (j.2 - 1) ∧ j.1 ≤ next := by
      intro j hj
      have hj' := hl.nonempty j (mem_cons_of_mem _ hj)
      have := hgaps j hj
      exact ⟨nextOffset_mono (by omega), (h j hj).2⟩
    have hnot : Covered l o → e < o := fun ⟨j, hj, hle, _⟩ => (hgaps j hj).trans_le hle
    rw [map_cons, gapsFrom, ih hl.tail _ (nextOffset_nonneg _) hafter, covered_cons]
    dsimp only at hend hbegin ⊢
    -- the next candidate is the end of the range, but for ranges below zero and a range that
    -- ends with the largest offset, after which there is no offset of the log
    split_ifs with hgap
    · rw [mem_insertRange, prevOffset_eq (by omega)]
      simp only [nextOffset, Offset.max] at hend hnext ⊢
      split_ifs at hend ⊢ <;> grind
    · simp only [nextOffset, Offset.max] at hend hnext ⊢
      split_ifs at hend ⊢ <;> grind

namespace CompactedLog

variable {log log' : CompactedLog}

/-- The dirty ranges of a log have its offsets that are not cleaned. -/
theorem Sound.mem_dirtyRanges (h : log.Sound) (hlt : log.startOffset < log.nextOffset) {o : Int} :
    o ∈ dirtyRanges log.startOffset (prevOffset log.nextOffset) log.cleaned ↔ log.IsDirty o := by
  have hstart := h.start_nonneg
  have hgaps := mem_gapsFrom (o := o) log.cleaned.separated .empty hstart h.next_le_max h.touches
  rw [← toVec] at hgaps
  simp only [IntervalSet.not_mem_empty, false_or] at hgaps
  refine Iff.trans ?_ hgaps
  rw [dirtyRanges, prevOffset_eq (by omega)]
  split_ifs with hlast
  · rw [mem_insertRange, or_comm]
    exact or_congr_right (by omega)
  · exact (or_iff_left (by omega)).symm

/-- What is returned as the dirty ranges of a log. -/
theorem Sound.mem_compactionOffsets {start next : Int} {state : Option CompactionState}
    (h : Sound ⟨start, next, (state.map (·.cleanedRanges)).getD .empty⟩) (upperBound : Int)
    {o : Int} : o ∈ (compactionOffsets start next state upperBound).dirtyRanges ↔
      start ≤ o ∧ o < next ∧ ∀ s ∈ state, o ∉ s.cleanedRanges := by
  have hstart : 0 ≤ start := h.start_nonneg
  by_cases hle : next ≤ start
  · rw [compactionOffsets.eq_def, if_pos hle]
    refine ⟨fun ho => absurd ho IntervalSet.not_mem_empty, fun ho => ?_⟩
    exact absurd (ho.2.1.trans_le hle) ho.1.not_gt
  · rw [compactionOffsets.eq_def, if_neg hle]
    rcases state with - | state
    · refine mem_insertRange.trans ?_
      rw [prevOffset_eq (by omega)]
      simp only [IntervalSet.not_mem_empty, or_false, Option.not_mem_none, IsEmpty.forall_iff,
        implies_true, and_true]
      omega
    · refine (h.mem_dirtyRanges (lt_of_not_ge hle)).trans ?_
      simp [IsDirty]

/-! ## Updates -/

theorem sound_init : Sound init where
  start_nonneg := le_rfl
  start_le_next := le_rfl
  next_le_max := by decide
  touches := nofun

theorem Touches.insertRange {cleaned : OffsetIntervalSet} {base last : Int}
    (h : ∀ i ∈ cleaned.intervals, log.Touches i.1 (i.2 - 1)) (hr : log.Touches base last) :
    ∀ i ∈ (insertRange cleaned base last).1.intervals, log.Touches i.1 (i.2 - 1) := by
  have hlast : base + (last - base + 1) - 1 = last := by omega
  have hends : ∀ i ∈ (OffsetIntervalSet.insertRange cleaned base last).1.intervals,
      i.1 ≤ log.nextOffset ∧ log.startOffset ≤ Model.nextOffset (i.2 - 1) :=
    IntervalSet.forall_mem_insert (P := (· ≤ log.nextOffset))
      (Q := fun e => log.startOffset ≤ Model.nextOffset (e - 1))
      (fun i hi => (h i hi).symm) hr.2 (by rw [hlast]; exact hr.1)
  exact fun i hi => (hends i hi).symm

theorem Sound.clean (h : log.Sound) {ranges : List CleanedRange}
    (hranges : ∀ r ∈ ranges, log.Touches r.baseOffset r.lastOffset) : (log.clean ranges).Sound where
  __ := h
  touches := by
    refine foldlRecOn (motive := fun cleaned : OffsetIntervalSet =>
      ∀ i ∈ cleaned.intervals, log.Touches i.1 (i.2 - 1)) ranges _ h.touches
      fun cleaned hcleaned r hr => ?_
    exact Touches.insertRange hcleaned (hranges r hr)

/-- The ranges that are left do not end below the new start. -/
theorem le_of_mem_eraseBelow {s : OffsetIntervalSet} {start : Int} {i : Int × Int}
    (hi : i ∈ (eraseBelow s start).intervals) : start ≤ i.2 - 1 := by
  obtain ⟨l, hl⟩ := s
  change i ∈ l.dropWhile (·.2 - 1 < start) at hi
  induction l with
  | nil => cases hi
  | cons j l ih =>
    rw [dropWhile_cons] at hi
    split_ifs at hi with hj
    · exact ih hl.tail hi
    · simp only [decide_eq_true_eq, not_lt] at hj
      rcases mem_cons.1 hi with rfl | hi
      · exact hj
      · have := (pairwise_cons.1 hl.gaps).1 i hi
        have := hl.tail.nonempty i hi
        omega

theorem Sound.truncate (h : log.Sound) {start : Int} (hlt : log.startOffset < start)
    (hle : start ≤ log.nextOffset) :
    Sound { log with
      startOffset := start
      cleaned := truncateWithNewStartOffset log.cleaned start } where
  start_nonneg := h.start_nonneg.trans hlt.le
  start_le_next := hle
  next_le_max := h.next_le_max
  touches := by
    have hbelow : ∀ i ∈ (eraseBelow log.cleaned start).intervals,
        Touches { log with startOffset := start } i.1 (i.2 - 1) := fun i hi =>
      ⟨(le_of_mem_eraseBelow hi).trans (le_nextOffset _),
        (h.touches i ((dropWhile_sublist _).subset hi)).2⟩
    rw [truncateWithNewStartOffset]
    split
    · exact hbelow
    · rename_i hfirst
      split_ifs
      · exact hbelow
      · -- the first range is cut, and what is left of it begins at the start of the log
        have hcut := hbelow _ (hfirst ▸ mem_cons_self)
        exact Touches.insertRange (fun i hi => hbelow i (mem_of_mem_tail hi)) ⟨hcut.1, hle⟩

/-- Every update keeps the cleaned ranges in touch with the log. -/
theorem Sound.step (h : log.Sound) (hstep : log.Step log') : log'.Sound := by
  rcases hstep with _ | ⟨hle, hmax⟩ | hranges | ⟨hlt, hle⟩ | _
  · exact h
  · refine ⟨h.start_nonneg, h.start_le_next.trans hle, hmax, fun i hi => ?_⟩
    exact ⟨(h.touches i hi).1, (h.touches i hi).2.trans hle⟩
  · exact h.clean hranges
  · exact h.truncate hlt hle
  · exact sound_init

end CompactedLog

end Redpanda.LevelOne
