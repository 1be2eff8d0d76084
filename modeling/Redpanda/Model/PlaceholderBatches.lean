import Redpanda.Lib.Tiling
import Redpanda.Model.Fundamental
import Redpanda.Model.Record

/-!
# Placeholder batches

A gap in the offsets of a log is filled with batches without records (`makePlaceholderBatches`).

* The gap is tiled if it has less than `2 ^ 31` offsets and the largest offset is not among them,
  and only then (`exists_tiles_iff`).
* Otherwise the first batch has one record more than its count can say
  (`exists_recordCount_neg`), or the loop never gets beyond the largest offset
  (`makePlaceholderBatches_max`).
-/

namespace Redpanda.Model

open Lib

/-- What the header of a placeholder batch says of its offsets. -/
structure PlaceholderBatch where
  baseOffset : Int
  lastOffsetDelta : Int
  recordCount : Int
  deriving DecidableEq

def PlaceholderBatch.lastOffset (b : PlaceholderBatch) : Int :=
  b.baseOffset + b.lastOffsetDelta

def makePlaceholderBatch (startOffset endOffset : Int) : PlaceholderBatch :=
  let delta := endOffset - startOffset
  ⟨startOffset, toInt32 delta, toInt32 (delta + 1)⟩

/-- The batches, or none while the loop is still running after some rounds. -/
def makePlaceholderBatches (rounds : Nat) (startOffset endOffset : Int) :
    Option (List PlaceholderBatch) :=
  if startOffset ≤ endOffset then
    match rounds with
    | 0 => none
    | rounds + 1 =>
      let delta := min (2 ^ 31 - 1) (endOffset - startOffset)
      let batch := makePlaceholderBatch startOffset (delta + startOffset)
      (makePlaceholderBatches rounds (nextOffset batch.lastOffset) endOffset).map (batch :: ·)
  else some []

/-- The batches cover the offsets from the first to the last one, and their headers say how
    many each covers. -/
structure Tiles (startOffset endOffset : Int) (bs : List PlaceholderBatch) : Prop where
  eq_nil : endOffset < startOffset → bs = []
  consecutive : startOffset ≤ endOffset →
    Consecutive (·.baseOffset) (·.lastOffset) startOffset bs (endOffset + 1)
  recordCount : ∀ b ∈ bs, 0 < b.recordCount ∧ b.recordCount < 2 ^ 31 ∧
    b.recordCount = b.lastOffset - b.baseOffset + 1 ∧ b.lastOffsetDelta = b.recordCount - 1

section

variable {startOffset endOffset : Int}

/-- A gap whose record count fits a batch gets one batch. -/
theorem makePlaceholderBatch_eq (hle : startOffset ≤ endOffset)
    (hgap : endOffset - startOffset < 2 ^ 31 - 1) : makePlaceholderBatch startOffset endOffset =
      ⟨startOffset, endOffset - startOffset, endOffset - startOffset + 1⟩ := by
  rw [makePlaceholderBatch, toInt32, toInt32, Int.bmod_eq_of_le (by omega) (by omega),
    Int.bmod_eq_of_le (by omega) (by omega)]

/-- The first round of a loop with such a gap. -/
theorem makePlaceholderBatches_succ (n : Nat) (hle : startOffset ≤ endOffset)
    (hgap : endOffset - startOffset < 2 ^ 31 - 1) :
    makePlaceholderBatches (n + 1) startOffset endOffset =
      (makePlaceholderBatches n (nextOffset endOffset) endOffset).map
        (⟨startOffset, endOffset - startOffset, endOffset - startOffset + 1⟩ :: ·) := by
  rw [makePlaceholderBatches.eq_def, if_pos hle]
  simp only [min_eq_right hgap.le, Int.sub_add_cancel, makePlaceholderBatch_eq hle hgap,
    PlaceholderBatch.lastOffset, add_sub_cancel]

theorem tiles_of_lt (n : Nat) (hstart : 0 ≤ startOffset)
    (hgap : endOffset - startOffset < 2 ^ 31 - 1) (hmax : endOffset < Offset.max) :
    ∃ bs, makePlaceholderBatches (n + 1) startOffset endOffset = some bs ∧
      Tiles startOffset endOffset bs := by
  by_cases hle : startOffset ≤ endOffset
  · refine ⟨[⟨startOffset, endOffset - startOffset, endOffset - startOffset + 1⟩], ?_,
      fun h => absurd hle h.not_ge, fun _ => ?_, ?_⟩
    · -- the second round finds the end of the gap
      rw [makePlaceholderBatches_succ n hle hgap, nextOffset_eq (by omega) hmax,
        makePlaceholderBatches.eq_def, if_neg (by omega)]
      rfl
    · simpa [Consecutive, PlaceholderBatch.lastOffset] using hle
    · simp only [List.mem_singleton, forall_eq, PlaceholderBatch.lastOffset]
      omega
  · rw [makePlaceholderBatches, if_neg hle]
    exact ⟨[], rfl, fun _ => rfl, fun h => absurd h hle, by simp⟩

/-- The loop does not get beyond the largest offset. -/
theorem makePlaceholderBatches_max (n : Nat) :
    makePlaceholderBatches n Offset.max Offset.max = none := by
  induction n with
  | zero => rfl
  | succ n ih =>
    change (makePlaceholderBatches n Offset.max Offset.max).map _ = none
    rw [ih]
    rfl

/-- The first batch of a larger gap has a record too many for its count. -/
theorem exists_recordCount_neg {n : Nat} {bs : List PlaceholderBatch}
    (hgap : 2 ^ 31 - 1 ≤ endOffset - startOffset)
    (h : makePlaceholderBatches n startOffset endOffset = some bs) :
    ∃ b ∈ bs, b.recordCount = -2 ^ 31 := by
  rw [makePlaceholderBatches.eq_def, if_pos (by omega)] at h
  cases n with
  | zero => cases h
  | succ n =>
    obtain ⟨rest, -, rfl⟩ := Option.map_eq_some_iff.1 h
    refine ⟨_, List.mem_cons_self, ?_⟩
    rw [min_eq_left hgap, makePlaceholderBatch, Int.add_sub_cancel]
    rfl

/-- The loop ends and tiles the gap exactly if there is none, or if the number of its offsets fits
    a record count and there is an offset after it. -/
theorem exists_tiles_iff (hstart : 0 ≤ startOffset) (hend : endOffset ≤ Offset.max) :
    (∃ n bs, makePlaceholderBatches n startOffset endOffset = some bs ∧
        Tiles startOffset endOffset bs) ↔
      endOffset < startOffset ∨
        endOffset - startOffset < 2 ^ 31 - 1 ∧ endOffset < Offset.max := by
  constructor
  · rintro ⟨n, bs, h, htiles⟩
    by_contra! hcon
    obtain ⟨hle, hmax⟩ := hcon
    rcases lt_or_ge (endOffset - startOffset) (2 ^ 31 - 1) with hgap | hgap
    · -- the gap ends at the largest offset, so that each round begins there again
      obtain rfl : endOffset = Offset.max := le_antisymm hend (hmax hgap)
      cases n with
      | zero => simp [makePlaceholderBatches, hle] at h
      | succ n =>
        rw [makePlaceholderBatches_succ n hle hgap, show nextOffset Offset.max = Offset.max from
          rfl, makePlaceholderBatches_max] at h
        cases h
    · obtain ⟨b, hb, hcount⟩ := exists_recordCount_neg hgap h
      have := (htiles.recordCount b hb).1
      omega
  · rintro (hlt | ⟨hgap, hmax⟩)
    · exact ⟨0, [], by rw [makePlaceholderBatches.eq_def, if_neg hlt.not_ge], fun _ => rfl,
        fun h => absurd h hlt.not_ge, by simp⟩
    · exact ⟨1, tiles_of_lt 0 hstart hgap hmax⟩

theorem exists_tiles_ten : ∃ n bs, makePlaceholderBatches n 10 (2 ^ 31 + 8) = some bs ∧
    Tiles 10 (2 ^ 31 + 8) bs :=
  (exists_tiles_iff (by decide) (by decide)).2 (.inr (by decide))

end

/-- A gap of `2 ^ 31` offsets gets a batch with a negative count, and the largest offset does not
    get any. -/
theorem makePlaceholderBatches_at_limits :
    makePlaceholderBatches 1 0 (2 ^ 31 - 1) = some [⟨0, 2 ^ 31 - 1, -2 ^ 31⟩] ∧
      ∀ n, makePlaceholderBatches n Offset.max Offset.max = none :=
  ⟨by decide, makePlaceholderBatches_max⟩

end Redpanda.Model
