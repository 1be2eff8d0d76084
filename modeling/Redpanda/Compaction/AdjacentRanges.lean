import Mathlib.Algebra.BigOperators.Group.List.Basic
import Mathlib.Algebra.Ring.Nat
import Mathlib.Order.Nat
import Mathlib.Tactic.SplitIfs

/-!
# Ranges of segments to merge

`find_adjacent_compaction_ranges` goes once through the segments of a log. The current range grows
by the next segment, unless one of five boundaries is met: then it is kept, if it has at least two
segments, and the next one begins at this segment, or behind it if it is not stable.

* `ScanInv`: the accumulated size and the term are those of the current range at every step.
* `found_findAdjacentCompactionRanges`: the ranges can be merged, are disjoint and in order.
-/

namespace Redpanda.Compaction

open List

/-- What is read of a segment. -/
structure MergeSegment where
  baseOffset : Int
  dirtyOffset : Int
  term : Int
  sizeBytes : Nat
  hasSelfCompactTimestamp : Bool
  hasAppender : Bool
  /-- For the configuration of the compaction. -/
  isCompactible : Bool

/-- The limits, and the offset below which segments are about to be removed. -/
structure MergeConfig where
  maxCompactedSegmentSize : Nat
  maxSegmentsPerRange : Option Nat
  maxRanges : Option Nat
  newStartOffset : Option Int

/-- The ranges that were found, and the current one. The second position is behind the range. -/
structure RangeScan where
  ranges : List (Nat × Nat) := []
  currentRange : Nat × Nat := (0, 0)
  currentSize : Nat := 0
  currentTerm : Int

/-- The current range is kept if it has at least two segments. -/
def RangeScan.push (x : RangeScan) : List (Nat × Nat) :=
  if 1 < x.currentRange.2 - x.currentRange.1 then x.ranges ++ [x.currentRange] else x.ranges

def validOffsetRange (first last : MergeSegment) : Bool :=
  last.dirtyOffset - first.baseOffset ≤ 2 ^ 32 - 1

namespace MergeConfig

variable (cfg : MergeConfig) (segs : List MergeSegment)

def unstable (seg : MergeSegment) : Bool :=
  cfg.newStartOffset.any (seg.baseOffset < ·) || !seg.hasSelfCompactTimestamp ||
    seg.hasAppender || !seg.isCompactible

/-- The loop, with the segments from `it` on. -/
def scan : List MergeSegment → Nat → RangeScan → List (Nat × Nat)
  | [], _, x => x.push
  | seg :: rest, it, x =>
    let currentSize := x.currentSize + seg.sizeBytes
    let numSegments := x.currentRange.2 - x.currentRange.1
    if seg.term ≠ x.currentTerm ∨ cfg.maxCompactedSegmentSize < currentSize ∨
        cfg.maxSegmentsPerRange.any (· ≤ numSegments) ∨ cfg.unstable seg ∨
        ¬ segs[x.currentRange.1]?.all (validOffsetRange · seg) then
      if 1 < numSegments ∧ cfg.maxRanges.any (· ≤ x.push.length) then x.push
      else if cfg.unstable seg then
        -- behind the last segment, the term is the default one
        scan rest (it + 1) ⟨x.push, (it + 1, it + 1), 0, rest.head?.elim (-2 ^ 63) (·.term)⟩
      else scan rest (it + 1) ⟨x.push, (it, it + 1), seg.sizeBytes, seg.term⟩
    else
      scan rest (it + 1)
        ⟨x.ranges, (x.currentRange.1, x.currentRange.2 + 1), currentSize, x.currentTerm⟩

def findAdjacentCompactionRanges : Option (List (Nat × Nat)) :=
  if cfg.maxRanges.any (· < 1) ∨ cfg.maxSegmentsPerRange.any (· < 2) then none
  else
    match segs with
    | first :: _ :: _ =>
      let ranges := cfg.scan segs segs 0 { currentTerm := first.term }
      if ranges = [] then none else some ranges
    | _ => none

end MergeConfig

/-- The segments of a range. -/
def slice (segs : List MergeSegment) (r : Nat × Nat) : List MergeSegment :=
  (segs.drop r.1).take (r.2 - r.1)

/-- Segments of one term that can be merged. A single one may be too large. -/
structure Mergeable (cfg : MergeConfig) (term : Int) (l : List MergeSegment) : Prop where
  stable : ∀ s ∈ l, ¬ cfg.unstable s ∧ s.term = term
  count : ∀ n ∈ cfg.maxSegmentsPerRange, l.length ≤ n
  size : 2 ≤ l.length → (l.map (·.sizeBytes)).sum ≤ cfg.maxCompactedSegmentSize
  span : 2 ≤ l.length → ∀ s ∈ l.head?, ∀ s' ∈ l.getLast?, validOffsetRange s s'

/-- Ranges of at least two segments each, disjoint and in the order of the log. -/
structure Found (cfg : MergeConfig) (segs : List MergeSegment) (ranges : List (Nat × Nat)) :
    Prop where
  mergeable : ∀ r ∈ ranges, r.1 + 2 ≤ r.2 ∧ r.2 ≤ segs.length ∧
    ∃ term, Mergeable cfg term (slice segs r)
  ordered : ranges.Pairwise (·.2 ≤ ·.1)

/-- The loop before the segment at `it`. -/
structure ScanInv (cfg : MergeConfig) (segs : List MergeSegment) (it : Nat) (x : RangeScan) :
    Prop where
  le : x.currentRange.1 ≤ it
  eq : x.currentRange.2 = it
  size : ((slice segs x.currentRange).map (·.sizeBytes)).sum = x.currentSize
  current : Mergeable cfg x.currentTerm (slice segs x.currentRange)
  found : Found cfg segs x.ranges
  before : ∀ r ∈ x.ranges, r.2 ≤ x.currentRange.1

variable {cfg : MergeConfig} {segs l rest : List MergeSegment} {seg : MergeSegment} {x : RangeScan}
  {a it : Nat} {term : Int}

theorem slice_self : slice segs (it, it) = [] := by
  simp [slice]

theorem slice_succ (hseg : segs[it]? = some seg) (hle : a ≤ it) :
    slice segs (a, it + 1) = slice segs (a, it) ++ [seg] := by
  simp only [slice]
  rw [Nat.sub_add_comm hle, take_add_one, getElem?_drop, Nat.add_sub_cancel' hle, hseg]
  rfl

theorem length_slice {r : Nat × Nat} (hle : r.2 ≤ segs.length) :
    (slice segs r).length = r.2 - r.1 := by
  simp only [slice, length_take, length_drop]
  omega

theorem mergeable_nil : Mergeable cfg term [] := by
  constructor <;> simp

theorem mergeable_singleton (hseg : ¬ cfg.unstable seg)
    (hmax : ∀ n ∈ cfg.maxSegmentsPerRange, 2 ≤ n) : Mergeable cfg seg.term [seg] where
  stable := by simpa using hseg
  count n hn := (Nat.le_succ 1).trans (hmax n hn)
  size := by simp
  span := by simp

theorem Mergeable.concat (h : Mergeable cfg term l) (hseg : ¬ cfg.unstable seg)
    (hterm : seg.term = term) (hcount : ∀ n ∈ cfg.maxSegmentsPerRange, l.length < n)
    (hsize : (l.map (·.sizeBytes)).sum + seg.sizeBytes ≤ cfg.maxCompactedSegmentSize)
    (hspan : ∀ s ∈ l.head?, validOffsetRange s seg) : Mergeable cfg term (l ++ [seg]) where
  stable := forall_mem_append.2 ⟨h.stable, forall_mem_singleton.2 ⟨hseg, hterm⟩⟩
  count n hn := by simpa using Nat.succ_le_of_lt (hcount n hn)
  size _ := by simpa using hsize
  span htwo := by
    rw [getLast?_concat]
    cases l with
    | nil => simp at htwo
    | cons s l => simpa using hspan s rfl

namespace ScanInv

variable (h : ScanInv cfg segs it x) (hit : it ≤ segs.length)

include h hit

theorem push : Found cfg segs x.push ∧ ∀ r ∈ x.push, r.2 ≤ it := by
  have hbefore : ∀ r ∈ x.ranges, r.2 ≤ it := fun r hr => (h.before r hr).trans h.le
  rw [RangeScan.push]
  split_ifs with hnum
  · refine ⟨⟨forall_mem_append.2 ⟨h.found.mergeable, forall_mem_singleton.2 ?_⟩, ?_⟩, ?_⟩
    · exact ⟨by omega, h.eq.trans_le hit, _, h.current⟩
    · exact pairwise_append.2
        ⟨h.found.ordered, pairwise_singleton _ _, by simpa using h.before⟩
    · exact forall_mem_append.2 ⟨hbefore, forall_mem_singleton.2 h.eq.le⟩
  · exact ⟨h.found, hbefore⟩

/-- The loop, by induction on the segments that are left. -/
theorem scan (hrest : segs.drop it = rest) (hmax : ∀ n ∈ cfg.maxSegmentsPerRange, 2 ≤ n) :
    Found cfg segs (cfg.scan segs rest it x) := by
  induction rest generalizing it x with
  | nil => exact (h.push hit).1
  | cons seg rest ih =>
    have hseg : segs[it]? = some seg := by rw [← head?_drop, hrest]; rfl
    obtain ⟨hlt, -⟩ := List.getElem?_eq_some_iff.1 hseg
    have hrest' : segs.drop (it + 1) = rest := by rw [← tail_drop, hrest]; rfl
    obtain ⟨hpush, hbefore⟩ := h.push hit
    rw [MergeConfig.scan]
    -- the range ends here, and the next one starts behind `seg` or with it; or `seg` joins the range
    split_ifs with hboundary _ hunstable
    · exact hpush
    · have hbefore' : ∀ r ∈ x.push, r.2 ≤ it + 1 := fun r hr => (hbefore r hr).trans (Nat.le_succ it)
      refine ih ⟨le_rfl, rfl, ?_, ?_, hpush, hbefore'⟩ hlt hrest' <;> rw [slice_self]
      · rfl
      · exact mergeable_nil
    · refine ih ⟨Nat.le_succ it, rfl, ?_, ?_, hpush, hbefore⟩ hlt hrest' <;>
        rw [slice_succ hseg le_rfl, slice_self]
      · simp
      · exact mergeable_singleton hunstable hmax
    · simp only [not_or, not_not] at hboundary
      obtain ⟨hterm, hsize, hcount, hstable, hvalid⟩ := hboundary
      have hslice := h.eq ▸ slice_succ hseg h.le
      refine ih ⟨h.le.trans (Nat.le_succ it), congrArg _ h.eq, ?_, ?_, h.found, h.before⟩ hlt hrest'
        <;> rw [hslice]
      · simp [h.size]
      · refine h.current.concat hstable hterm (fun n hn => ?_) (h.size ▸ not_lt.1 hsize) fun s hs => ?_
        · rw [length_slice (h.eq.trans_le hit)]
          simpa [Option.mem_def.1 hn] using hcount
        · have hs' : segs[x.currentRange.1]? = some s := by
            rw [slice, head?_take] at hs
            split_ifs at hs
            · cases hs
            · rwa [head?_drop] at hs
          simpa [hs'] using hvalid

end ScanInv

/-- What is found can be merged, and is in the order of the log. -/
theorem found_findAdjacentCompactionRanges (cfg : MergeConfig) (segs : List MergeSegment) :
    Found cfg segs ((cfg.findAdjacentCompactionRanges segs).getD []) := by
  have hnil : Found cfg segs [] := ⟨by simp, .nil⟩
  unfold MergeConfig.findAdjacentCompactionRanges
  split_ifs with hlimits
  · exact hnil
  · simp only [not_or, Option.any_eq_true, not_exists, not_and, decide_eq_true_eq, not_lt] at hlimits
    split
    · dsimp only
      split_ifs
      · exact hnil
      · refine ScanInv.scan ⟨le_rfl, rfl, ?_, ?_, hnil, by simp⟩ (Nat.zero_le _) rfl hlimits.2 <;>
          rw [slice_self]
        · rfl
        · exact mergeable_nil
    · exact hnil

/-- The third segment is of another term. -/
example : (MergeConfig.mk 100 none none none).findAdjacentCompactionRanges
    [⟨0, 9, 1, 50, true, false, true⟩, ⟨10, 19, 1, 50, true, false, true⟩,
      ⟨20, 29, 2, 1, true, false, true⟩, ⟨30, 39, 2, 1, true, false, true⟩] =
    some [(0, 2), (2, 4)] := by
  decide

end Redpanda.Compaction
