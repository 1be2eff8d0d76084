import Redpanda.Lib.Except
import Redpanda.Lib.Run
import Redpanda.Storage.Gaps

/-!
# Offset translation counts data records

A log is appended to, truncated at both ends, and its translator is written and read back now and
then. `TranslatedLog.log` has all the batches, also those which prefix truncations have removed.
Whatever has happened, `from_log_offset` subtracts the number of filtered offsets below, and
`to_log_offset` finds the offset again (`TranslatedLog.translation_of_run`).

The invariant (`TranslatedLog.Inv`) is that the state represents the gaps which the filtered
batches of the log leave above the base of the translation, and counts those below. A function
which throws leaves the state as it is; that happens only if a batch is added again after a prefix
truncation at its end (`TranslatedLog.Inv.succeeds`).
-/

namespace Redpanda.Storage

open Model Lib List

/-! ## Batches -/

/-- What the translator looks at in a batch of a log. Types are those of the header. -/
structure LogBatch (τ : Type) where
  baseOffset : Int
  lastOffsetDelta : Nat
  type : τ
  /-- Offsets in a log are not negative. -/
  nonneg : 0 ≤ baseOffset := by decide
  /-- The number of records is an `int32_t`. -/
  recordCount_lt : lastOffsetDelta + 1 < 2 ^ 31 := by decide
  /-- The largest offset is not the one of a record. -/
  lt_max : baseOffset + lastOffsetDelta < Offset.max := by decide
  deriving DecidableEq

variable {τ : Type}

namespace LogBatch

variable (b : LogBatch τ)

def lastOffset : Int := b.baseOffset + b.lastOffsetDelta

/-- The offsets of the batch. -/
@[simps]
def gap : Gap := ⟨b.baseOffset, b.lastOffset⟩

theorem baseOffset_le : b.baseOffset ≤ b.lastOffset := by
  rw [lastOffset]
  omega

theorem lastOffset_lt : b.lastOffset < Offset.max := b.lt_max

theorem gap_length_lt : b.gap.length < 2 ^ 31 := by
  have := b.recordCount_lt
  rw [Gap.length, gap_base, gap_last, lastOffset]
  omega

end LogBatch

variable [DecidableEq τ] (types : List τ) (log : List (LogBatch τ))

/-- The gaps of the batches with one of the filtered types. -/
def filteredGaps : List Gap :=
  (log.filter (·.type ∈ types)).map LogBatch.gap

/-- The offset is in a batch with one of the filtered types. -/
def IsFiltered (o : Int) : Prop :=
  ∃ b ∈ log, b.type ∈ types ∧ b.gap.Covers o

instance (log : List (LogBatch τ)) : DecidablePred (IsFiltered types log) := fun _ =>
  inferInstanceAs (Decidable (∃ _ ∈ _, _))

/-- How many filtered offsets are below one. -/
def filteredBelow (o : Int) : Nat :=
  -- the order is named, as instance search may find one that does not compute
  let range := @Finset.Ico Int Int.instLinearOrder.toPartialOrder.toPreorder
    Int.instLocallyFiniteOrder 0 o
  (range.filter (IsFiltered types log)).card

section

variable {types} {log : List (LogBatch τ)}

theorem mem_filteredGaps {g : Gap} :
    g ∈ filteredGaps types log ↔ ∃ b ∈ log, b.type ∈ types ∧ b.gap = g := by
  simp [filteredGaps, and_assoc]

theorem forall_mem_filteredGaps {P : Gap → Prop} :
    (∀ g ∈ filteredGaps types log, P g) ↔ ∀ b ∈ log, b.type ∈ types → P b.gap := by
  simp only [filteredGaps, forall_mem_map, mem_filter, decide_eq_true_eq, and_imp]

theorem filteredGaps_sublist (types : List τ) (log : List (LogBatch τ)) :
    (filteredGaps types log).Sublist (log.map LogBatch.gap) :=
  filter_sublist.map _

theorem filteredGaps_append (log log' : List (LogBatch τ)) :
    filteredGaps types (log ++ log') = filteredGaps types log ++ filteredGaps types log' := by
  simp [filteredGaps]

/-- One more batch leaves a gap if it is filtered. -/
theorem filteredGaps_concat (log : List (LogBatch τ)) (b : LogBatch τ) :
    filteredGaps types (log ++ [b]) =
      filteredGaps types log ++ if b.type ∈ types then [b.gap] else [] := by
  rw [filteredGaps_append, filteredGaps, filteredGaps]
  split_ifs with h
  · rw [filter_cons_of_pos (by simpa using h)]
    rfl
  · rw [filter_cons_of_neg (by simpa using h)]
    rfl

theorem filteredGaps_filter (p : Gap → Bool) (log : List (LogBatch τ)) :
    filteredGaps types (log.filter (p ·.gap)) = (filteredGaps types log).filter p := by
  rw [filteredGaps, filteredGaps, filter_map, filter_filter, filter_filter]
  refine congrArg _ (filter_congr fun b _ => ?_)
  simp [Bool.and_comm]

/-- The filtered offsets are those in the gaps. -/
theorem isFiltered_iff {o : Int} :
    IsFiltered types log o ↔ ∃ g ∈ filteredGaps types log, g.Covers o := by
  constructor
  · rintro ⟨b, hb, htype, hc⟩
    exact ⟨b.gap, mem_filteredGaps.2 ⟨b, hb, htype, rfl⟩, hc⟩
  · rintro ⟨g, hg, hc⟩
    obtain ⟨b, hb, htype, rfl⟩ := mem_filteredGaps.1 hg
    exact ⟨b, hb, htype, hc⟩

/-- The count is computed from the gaps. -/
theorem filteredBelow_eq {b : Int} (h : Ascending b (log.map LogBatch.gap)) (o : Int) :
    (filteredBelow types log o : Int) = countBelow (filteredGaps types log) o := by
  have hasc : Ascending (-1) (filteredGaps types log) :=
    (h.sublist (filteredGaps_sublist types log)).of_lt_base (forall_mem_filteredGaps.2
      fun b _ _ => Int.lt_of_lt_of_le (by decide) b.nonneg)
  rw [← card_covered hasc le_rfl, filteredBelow]
  simp only [isFiltered_iff]

end

/-! ## Runs -/

/-- A translator with the batches it was given. -/
structure TranslatedLog (τ : Type) where
  state : OffsetTranslatorState
  log : List (LogBatch τ) := []
  deriving DecidableEq

/-- What happens to a log and its translator. -/
inductive LogAction (τ : Type) where
  | append (b : LogBatch τ)
  /-- A batch of the log is added once more. -/
  | again (b : LogBatch τ)
  | truncate (offset : Int)
  | prefixTruncate (offset : Int)
  /-- The map is serialized and deserialized. -/
  | reload
  deriving DecidableEq

namespace OffsetTranslatorState

/-- The part of `offset_translator::process` which is about the state. -/
def addBatch (s : OffsetTranslatorState) (b : LogBatch τ) :
    Except TranslationError OffsetTranslatorState :=
  if b.type ∈ types then s.addGap b.baseOffset b.lastOffset else .ok s

/-- The state after a function that may throw. -/
def after (s : OffsetTranslatorState) : Except TranslationError OffsetTranslatorState →
    OffsetTranslatorState
  | .ok s' => s'
  | .error _ => s

end OffsetTranslatorState

namespace TranslatedLog

/-- Translation starts above a base. -/
def start (base delta : Int) : TranslatedLog τ := ⟨.ofBase base delta, []⟩

/-- One action, if it is allowed: batches are appended in the order of their offsets, and
    truncations are at the boundaries of batches. -/
def next (σ : TranslatedLog τ) : LogAction τ → Option (TranslatedLog τ)
  | .append b =>
    if (∀ c ∈ σ.log, c.lastOffset < b.baseOffset) ∧ ∀ base ∈ σ.state.base?, base < b.baseOffset then
      some ⟨σ.state.after (σ.state.addBatch types b), σ.log ++ [b]⟩
    else none
  | .again b =>
    if b ∈ σ.log then some ⟨σ.state.after (σ.state.addBatch types b), σ.log⟩ else none
  | .truncate o =>
    if (∀ base ∈ σ.state.base?, base < o) ∧
        ∀ c ∈ σ.log, c.lastOffset < o ∨ o ≤ c.baseOffset then
      some ⟨σ.state.after ((σ.state.truncate o).map (·.1)), σ.log.filter (·.lastOffset < o)⟩
    else none
  | .prefixTruncate o =>
    if ∃ c ∈ σ.log, c.lastOffset = o then
      some ⟨σ.state.after ((σ.state.prefixTruncate o).map (·.1)), σ.log⟩
    else none
  | .reload =>
    some ⟨σ.state.after (σ.state.serializeMap.bind OffsetTranslatorState.fromSerializedMap), σ.log⟩

/-- An action that is allowed. -/
def Step (σ : TranslatedLog τ) (a : LogAction τ) (σ' : TranslatedLog τ) : Prop :=
  σ.next types a = some σ'

/-- What an action calls does not throw. A batch that is added again may be one that was removed. -/
def Succeeds (σ : TranslatedLog τ) : LogAction τ → Prop
  | .append b => ∃ s, σ.state.addBatch types b = .ok s
  | .again _ => True
  | .truncate o => ∃ r, σ.state.truncate o = .ok r
  | .prefixTruncate o => ∃ r, σ.state.prefixTruncate o = .ok r
  | .reload => ∃ s, σ.state.serializeMap.bind OffsetTranslatorState.fromSerializedMap = .ok s

/-- The state translates the offsets of the log above `base`. -/
structure Inv (base₀ delta₀ : Int) (σ : TranslatedLog τ) (base : Int) : Prop where
  represents : σ.state.Represents base
    (delta₀ + countBelow (filteredGaps types σ.log) (base + 1))
    ((filteredGaps types σ.log).filter (base < ·.base))
  ascending : Ascending base₀ (σ.log.map LogBatch.gap)
  boundary : ∀ b ∈ σ.log, b.lastOffset ≤ base ∨ base < b.baseOffset
  le_base : base₀ ≤ base
  lt_max : base < Offset.max

variable {types} {base₀ delta₀ base : Int} {σ σ' : TranslatedLog τ}

theorem inv_start (h : base₀ < Offset.max) : Inv types base₀ delta₀ (start base₀ delta₀) base₀ where
  represents := by
    simpa [start, filteredGaps] using OffsetTranslatorState.represents_ofBase base₀ delta₀
  ascending := trivial
  boundary _ h := absurd h not_mem_nil
  le_base := le_rfl
  lt_max := h

namespace Inv

section

variable (h : Inv types base₀ delta₀ σ base)

include h

/-- The filtered batches are intervals of offsets, on one side of the base. -/
theorem filteredGaps_boundary :
    ∀ g ∈ filteredGaps types σ.log, g.base ≤ g.last ∧ (g.last ≤ base ∨ base < g.base) :=
  forall_mem_filteredGaps.2 fun b hb _ => ⟨b.baseOffset_le, h.boundary b hb⟩

/-- The gap of a batch above all others is added. -/
theorem addGap {b : LogBatch τ}
    (hlog : ∀ c ∈ σ.log, c.lastOffset < b.baseOffset) (hbase : base < b.baseOffset) :
    ∃ s', σ.state.addGap b.baseOffset b.lastOffset = .ok s' ∧ s'.Represents base
      (delta₀ + countBelow (filteredGaps types σ.log) (base + 1))
      ((filteredGaps types σ.log).filter (base < ·.base) ++ [b.gap]) := by
  have hlast : lastOf base ((filteredGaps types σ.log).filter (base < ·.base)) <
      b.baseOffset := by
    refine Ascending.lastOf_lt hbase fun g hg => ?_
    obtain ⟨c, hc, -, rfl⟩ := mem_filteredGaps.1 (mem_filter.1 hg).1
    exact hlog c hc
  exact h.represents.addGap_of_lt (g := b.gap) hlast b.baseOffset_le b.nonneg

/-- A batch above all others is appended. -/
theorem append {b : LogBatch τ}
    (hlog : ∀ c ∈ σ.log, c.lastOffset < b.baseOffset) (hbase : base < b.baseOffset) :
    Inv types base₀ delta₀ ⟨σ.state.after (σ.state.addBatch types b), σ.log ++ [b]⟩ base := by
  have hle := h.le_base
  refine ⟨?_, ?_, ?_, h.le_base, h.lt_max⟩
  · rw [filteredGaps_concat, OffsetTranslatorState.addBatch]
    split_ifs with htype
    · obtain ⟨s', hadd, hrep⟩ := h.addGap hlog hbase
      have hcount : countBelow [b.gap] (base + 1) = 0 :=
        countBelow_eq_zero fun g hg => by
          rw [mem_singleton.1 hg, LogBatch.gap_base]
          omega
      rw [hadd, countBelow_append, hcount, add_zero, filter_append,
        filter_cons_of_pos (p := fun g : Gap => decide (base < g.base)) (decide_eq_true hbase)]
      exact hrep
    · rw [append_nil]
      exact h.represents
  · rw [map_append]
    have hbase₀ : base₀ < b.baseOffset := by omega
    refine h.ascending.concat (Ascending.lastOf_lt hbase₀ fun g hg => ?_) b.baseOffset_le
    obtain ⟨c, hc, rfl⟩ := mem_map.1 hg
    exact hlog c hc
  · exact forall_mem_concat.2 ⟨h.boundary, .inr hbase⟩

/-- A batch that is added again changes nothing. -/
theorem again {b : LogBatch τ} (hb : b ∈ σ.log) :
    σ.state.after (σ.state.addBatch types b) = σ.state := by
  rw [OffsetTranslatorState.addBatch]
  split_ifs with htype
  · rcases hadd : σ.state.addGap b.baseOffset b.lastOffset with e | s'
    · rfl
    · refine h.represents.addGap_of_le (g := b.gap) ?_ b.baseOffset_le hadd
      rcases h.boundary b hb with hle | hlt
      · exact .inr hle
      · have hmem : b.gap ∈ (filteredGaps types σ.log).filter (base < ·.base) :=
          mem_filter.2 ⟨mem_filteredGaps.2 ⟨b, hb, htype, rfl⟩, decide_eq_true hlt⟩
        exact .inl (b.baseOffset_le.trans (h.represents.ascending.last_le_lastOf _ hmem))
  · rfl

/-- What a truncation between batches leaves. -/
theorem truncate_eq {o : Int} (ho : base < o)
    (hlog : ∀ c ∈ σ.log, c.lastOffset < o ∨ o ≤ c.baseOffset) :
    ∃ s' changed, σ.state.truncate o = .ok (s', changed) ∧ s'.Represents base
      (delta₀ + countBelow (filteredGaps types σ.log) (base + 1))
      (((filteredGaps types σ.log).filter (base < ·.base)).filter (·.last < o)) := by
  obtain ⟨s', changed, htruncate, hrep, -⟩ := h.represents.truncate_eq ho fun g hg => by
    obtain ⟨c, hc, -, rfl⟩ := mem_filteredGaps.1 (mem_filter.1 hg).1
    exact hlog c hc
  exact ⟨s', changed, htruncate, hrep⟩

/-- The batches above an offset are removed. -/
theorem truncate {o : Int} (ho : base < o)
    (hlog : ∀ c ∈ σ.log, c.lastOffset < o ∨ o ≤ c.baseOffset) :
    Inv types base₀ delta₀ ⟨σ.state.after ((σ.state.truncate o).map (·.1)),
      σ.log.filter (·.lastOffset < o)⟩ base := by
  have hfiltered : filteredGaps types (σ.log.filter (·.lastOffset < o)) =
      (filteredGaps types σ.log).filter (·.last < o) := filteredGaps_filter (·.last < o) σ.log
  obtain ⟨s', changed, htruncate, hrep⟩ := h.truncate_eq ho hlog
  refine ⟨?_, h.ascending.sublist (filter_sublist.map _),
    fun b hb => h.boundary b (mem_filter.1 hb).1, h.le_base, h.lt_max⟩
  rw [htruncate, hfiltered, filter_comm, countBelow_filter]
  · exact hrep
  · -- what is removed is above the base
    intro g hg hlt
    obtain ⟨c, hc, -, rfl⟩ := mem_filteredGaps.1 hg
    have hlt : ¬ c.lastOffset < o := of_decide_eq_false hlt
    have := (hlog c hc).resolve_left hlt
    rw [LogBatch.gap_base]
    omega

/-- No batch has the end of another one inside. -/
theorem boundary_lastOffset {c : LogBatch τ} (hc : c ∈ σ.log) :
    ∀ b ∈ σ.log, b.lastOffset ≤ c.lastOffset ∨ c.lastOffset < b.baseOffset :=
  fun _ hb => h.ascending.last_le_or_lt_base (mem_map_of_mem hc) (mem_map_of_mem hb)

theorem filteredGaps_lastOffset {c : LogBatch τ} (hc : c ∈ σ.log) :
    ∀ g ∈ filteredGaps types σ.log, g.last ≤ c.lastOffset ∨ c.lastOffset < g.base :=
  forall_mem_filteredGaps.2 fun b hb _ => h.boundary_lastOffset hc b hb

/-- The base moves to the end of a batch, unless it is above. -/
theorem prefixTruncate {c : LogBatch τ} (hc : c ∈ σ.log) :
    ∃ base', Inv types base₀ delta₀
      ⟨σ.state.after ((σ.state.prefixTruncate c.lastOffset).map (·.1)), σ.log⟩ base' := by
  rcases lt_or_ge c.lastOffset base with hlt | hge
  · refine ⟨base, ?_⟩
    rw [h.represents.prefixTruncate_of_lt hlt]
    exact h
  have hboundary := h.boundary_lastOffset hc
  have hgaps := h.filteredGaps_lastOffset hc
  obtain ⟨s', changed, htruncate, hrep, -⟩ := h.represents.prefixTruncate_eq hge fun g hg =>
    hgaps g (mem_filter.1 hg).1
  refine ⟨c.lastOffset, ?_, h.ascending, hboundary, h.le_base.trans hge, c.lastOffset_lt⟩
  have hcount : countBelow (filteredGaps types σ.log) (c.lastOffset + 1) =
      countBelow (filteredGaps types σ.log) (base + 1) +
        totalLength (((filteredGaps types σ.log).filter (base < ·.base)).filter
          (·.last < c.lastOffset + 1)) := by
    rw [countBelow_split h.filteredGaps_boundary (by omega),
      countBelow_eq_filter h.represents.ascending fun g hg =>
        (hgaps g (mem_filter.1 hg).1).imp_left Int.lt_add_one_of_le]
  have hfilter : ((filteredGaps types σ.log).filter (base < ·.base)).filter
      (c.lastOffset + 1 ≤ ·.last) = (filteredGaps types σ.log).filter (c.lastOffset < ·.base) :=
    filter_filter_eq fun g hg => by
      have hle := (h.filteredGaps_boundary g hg).1
      have hlast := hgaps g hg
      omega
  rw [htruncate, hcount, ← add_assoc, ← hfilter]
  exact hrep

/-- Truncating at the end of a batch does not throw. -/
theorem prefixTruncate_eq {c : LogBatch τ} (hc : c ∈ σ.log) :
    ∃ r, σ.state.prefixTruncate c.lastOffset = .ok r := by
  rcases lt_or_ge c.lastOffset base with hlt | hge
  · exact ⟨_, h.represents.prefixTruncate_of_lt hlt⟩
  · obtain ⟨s', changed, htruncate, -, -⟩ := h.represents.prefixTruncate_eq hge fun g hg =>
      h.filteredGaps_lastOffset hc g (mem_filter.1 hg).1
    exact ⟨_, htruncate⟩

/-- The state is read back as it was written. -/
theorem reload : σ.state.serializeMap.bind OffsetTranslatorState.fromSerializedMap = .ok σ.state :=
  h.represents.roundTrip fun g hg => by
    obtain ⟨b, -, -, rfl⟩ := mem_filteredGaps.1 (mem_filter.1 hg).1
    exact b.gap_length_lt

/-- Nothing throws but a batch that is added again. -/
theorem succeeds {a : LogAction τ} (hstep : σ.Step types a σ') : σ.Succeeds types a := by
  have hbase := h.represents.base?_eq
  rw [Step] at hstep
  cases a with
  | append b =>
    obtain ⟨hguard, -⟩ := Option.ite_none_right_eq_some.1 hstep
    rw [Succeeds, OffsetTranslatorState.addBatch]
    split_ifs
    · obtain ⟨s', hadd, -⟩ := h.addGap hguard.1 (hguard.2 base hbase)
      exact ⟨s', hadd⟩
    · exact ⟨σ.state, rfl⟩
  | again b => trivial
  | truncate o =>
    obtain ⟨hguard, -⟩ := Option.ite_none_right_eq_some.1 hstep
    obtain ⟨s', changed, htruncate, -⟩ := h.truncate_eq (hguard.1 base hbase) hguard.2
    exact ⟨_, htruncate⟩
  | prefixTruncate o =>
    obtain ⟨⟨c, hc, rfl⟩, -⟩ := Option.ite_none_right_eq_some.1 hstep
    exact h.prefixTruncate_eq hc
  | reload => exact ⟨_, h.reload⟩

end

/-- Every action keeps the invariant. -/
theorem step {a : LogAction τ} (h : ∃ base, Inv types base₀ delta₀ σ base)
    (hstep : σ.Step types a σ') : ∃ base, Inv types base₀ delta₀ σ' base := by
  obtain ⟨base, h⟩ := h
  have hbase := h.represents.base?_eq
  rw [Step] at hstep
  cases a with
  | append b =>
    obtain ⟨hguard, ⟨⟩⟩ := Option.ite_none_right_eq_some.1 hstep
    exact ⟨base, h.append hguard.1 (hguard.2 base hbase)⟩
  | again b =>
    obtain ⟨hguard, ⟨⟩⟩ := Option.ite_none_right_eq_some.1 hstep
    rw [h.again hguard]
    exact ⟨base, h⟩
  | truncate o =>
    obtain ⟨hguard, ⟨⟩⟩ := Option.ite_none_right_eq_some.1 hstep
    exact ⟨base, h.truncate (hguard.1 base hbase) hguard.2⟩
  | prefixTruncate o =>
    obtain ⟨hguard, ⟨⟩⟩ := Option.ite_none_right_eq_some.1 hstep
    obtain ⟨c, hc, rfl⟩ := hguard
    exact h.prefixTruncate hc
  | reload =>
    cases hstep
    rw [h.reload]
    exact ⟨base, h⟩

section

variable (h : Inv types base₀ delta₀ σ base)

include h

variable {o : Int}

/-- The delta of an offset above the base counts the filtered offsets. -/
theorem countBelow_eq (ho : base < o) :
    delta₀ + countBelow (filteredGaps types σ.log) (base + 1) +
      countBelow ((filteredGaps types σ.log).filter (base < ·.base)) o =
      delta₀ + filteredBelow types σ.log o := by
  rw [filteredBelow_eq h.ascending, add_assoc, ← countBelow_split h.filteredGaps_boundary ho]

/-- Above the base, the offsets outside the gaps are those which are not filtered. -/
theorem not_covers_iff (ho : base < o) :
    (∀ g ∈ (filteredGaps types σ.log).filter (base < ·.base), ¬ g.Covers o) ↔
      ¬ IsFiltered types σ.log o := by
  rw [isFiltered_iff, not_exists]
  simp only [not_and]
  refine ⟨fun hall g hg hc => ?_, fun hall g hg => hall g (mem_filter.1 hg).1⟩
  rcases (h.filteredGaps_boundary g hg).2 with hle | hlt
  · exact absurd hc.2 (by omega)
  · exact hall g (mem_filter.2 ⟨hg, by simpa using hlt⟩) hc

theorem fromLogOffset_eq (ho : base < o) :
    σ.state.fromLogOffset o = .ok (o - (delta₀ + filteredBelow types σ.log o)) := by
  rw [h.represents.fromLogOffset_eq ho, h.countBelow_eq ho]

theorem toLogOffset_eq (hdelta : 0 ≤ delta₀) {hint : Int} (ho : nextOffset base ≤ o)
    (hmax : o ≤ Offset.max) (hdata : ¬ IsFiltered types σ.log o) (hhint : hint ≤ o) :
    σ.state.toLogOffset (o - (delta₀ + filteredBelow types σ.log o)) hint = .ok o := by
  have hlt := (lt_nextOffset h.lt_max).trans_le ho
  have hcount := countBelow_nonneg (filteredGaps types σ.log) (base + 1)
  rw [← h.countBelow_eq hlt]
  exact h.represents.toLogOffset_eq (by omega) ho hmax h.lt_max ((h.not_covers_iff hlt).2 hdata)
    hhint

/-- Every data offset from the start on is the one of a log offset. -/
theorem exists_toLogOffset {d : Int}
    (hd : nextOffset base - (delta₀ + filteredBelow types σ.log (nextOffset base)) ≤ d) :
    ∃ o, nextOffset base ≤ o ∧ ¬ IsFiltered types σ.log o ∧
      o - (delta₀ + filteredBelow types σ.log o) = d := by
  have hlt := lt_nextOffset h.lt_max
  have hasc := h.represents.ascending_nextOffset h.lt_max
  -- no offset is filtered between the base and the start
  have hzero : countBelow ((filteredGaps types σ.log).filter (base < ·.base)) (nextOffset base) =
      0 := by
    refine countBelow_eq_zero fun g hg => ?_
    have := hasc.lt_base g hg
    omega
  rw [← h.countBelow_eq hlt, hzero, add_zero] at hd
  generalize hdelta : delta₀ + countBelow (filteredGaps types σ.log) (base + 1) = delta at hd
  have hd' : nextOffset base - 1 < d + delta := by omega
  have hselect := lt_select hasc hd'
  have hrank := rank_select hasc hd'
  have ho : base < select ((filteredGaps types σ.log).filter (base < ·.base)) (d + delta) := by
    omega
  refine ⟨_, by omega, (h.not_covers_iff ho).1 (not_covers_select hasc hd'), ?_⟩
  rw [rank] at hrank
  rw [← h.countBelow_eq ho, hdelta]
  omega

/-- After the last filtered batch, the last delta applies. -/
theorem lastDelta_eq (ho : base < o) (hlast : ∀ b ∈ σ.log, b.type ∈ types → b.lastOffset < o) :
    σ.state.lastDelta = .ok (delta₀ + filteredBelow types σ.log o) := by
  rw [h.represents.lastDelta_eq, ← h.countBelow_eq ho,
    countBelow_eq_totalLength h.represents.ascending]
  intro g hg
  obtain ⟨b, hb, htype, rfl⟩ := mem_filteredGaps.1 (mem_filter.1 hg).1
  exact hlast b hb htype

end

end Inv

/-- In every run, `from_log_offset` subtracts the filtered offsets below an offset, `to_log_offset`
    finds the record with a data offset, or adds the last delta after the last filtered batch, and
    the two are inverse on the offsets which are not filtered. Appends, truncations and reading the
    state back succeed in every state that is reached. -/
theorem translation_of_run {as : List (LogAction τ)} (hbase : base₀ < Offset.max)
    (hdelta : 0 ≤ delta₀) (hrun : Run (Step types) (start base₀ delta₀) as σ) :
    ∃ base, σ.state.base? = some base ∧
      (∀ o, base < o →
        σ.state.fromLogOffset o = .ok (o - (delta₀ + filteredBelow types σ.log o))) ∧
      (∀ d, nextOffset base - (delta₀ + filteredBelow types σ.log (nextOffset base)) ≤ d →
        ∃ o, nextOffset base ≤ o ∧ ¬ IsFiltered types σ.log o ∧
          o - (delta₀ + filteredBelow types σ.log o) = d ∧
          (o ≤ Offset.max → ∀ hint ≤ o, σ.state.toLogOffset d hint = .ok o) ∧
          ((∀ b ∈ σ.log, b.type ∈ types → b.lastOffset < o) →
            σ.state.lastDelta.map (d + ·) = .ok o)) ∧
      (∀ o, nextOffset base ≤ o → o ≤ Offset.max → ¬ IsFiltered types σ.log o → ∀ hint ≤ o,
        (σ.state.fromLogOffset o).bind (σ.state.toLogOffset · hint) = .ok o) ∧
      ∀ a σ', σ.Step types a σ' → σ.Succeeds types a := by
  obtain ⟨base, h⟩ := Run.invariant (P := fun σ => ∃ base, Inv types base₀ delta₀ σ base)
    (fun h hstep => Inv.step h hstep) hrun ⟨base₀, inv_start hbase⟩
  have hlt := lt_nextOffset h.lt_max
  refine ⟨base, h.represents.base?_eq, fun o ho => h.fromLogOffset_eq ho, fun d hd => ?_,
    fun o ho hmax hdata hint hhint => ?_, fun a σ' hstep => h.succeeds hstep⟩
  · obtain ⟨o, ho, hdata, rfl⟩ := h.exists_toLogOffset hd
    refine ⟨o, ho, hdata, rfl, fun hmax hint hhint =>
      h.toLogOffset_eq hdelta ho hmax hdata hhint, fun hlast => ?_⟩
    rw [h.lastDelta_eq (hlt.trans_le ho) hlast]
    simp [Except.map]
  · rw [h.fromLogOffset_eq (hlt.trans_le ho)]
    exact h.toLogOffset_eq hdelta ho hmax hdata hhint

/-- A filtered batch between two others is added twice. The first batch is removed, and
    the last one is replaced. -/
def replaceRun : List (LogAction Bool) :=
  [.append ⟨0, 1, false, by decide, by decide, by decide⟩,
    .append ⟨2, 2, true, by decide, by decide, by decide⟩,
    .append ⟨5, 0, true, by decide, by decide, by decide⟩,
    .again ⟨2, 2, true, by decide, by decide, by decide⟩, .prefixTruncate 1, .reload, .truncate 5,
    .append ⟨5, 3, false, by decide, by decide, by decide⟩]

theorem translation_of_run_replace :
    ∃ σ : TranslatedLog Bool, Run (Step [true]) (start Offset.min 0) replaceRun σ ∧
      σ.state.toLogOffset 3 = .ok 6 ∧
      ∃ base, σ.state.base? = some base ∧ ∀ o, base < o →
        σ.state.fromLogOffset o = .ok (o - (0 + filteredBelow [true] σ.log o)) := by
  have h : (replaceRun.foldlM (next [true]) (start Offset.min 0)).map
      (fun σ => (σ.state.toLogOffset 3).toOption) = some (some 6) := by decide
  obtain ⟨σ, hrun, hto⟩ := Run.exists_of_map_foldlM h
  obtain ⟨base, hbase, hfrom, -⟩ := translation_of_run (by decide) le_rfl hrun
  exact ⟨σ, hrun, Except.toOption_eq_some.1 hto, base, hbase, hfrom⟩

end TranslatedLog

end Redpanda.Storage
