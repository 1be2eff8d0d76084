import Redpanda.CloudStorage.PartitionManifest

/-!
# Looking up segments by Kafka offset and by time

The manifest lists its segments by log offset. A Kafka offset is looked up from the first segment
whose base offset, a log offset, is not below it: Kafka offsets are never larger than log offsets,
and from there on the segments are scanned (`PartitionManifest.segmentContainingKafka`). Some
segments hold no Kafka offset at all and begin where the next one begins. The segment found is
nevertheless the one that holds the offset (`segmentContainingKafka_eq_some`), as long as the deltas
are those of a log (`SegmentMeta.HasDeltas`). The scan is always at a segment that does not begin
above the offset (`scanKafka_eq_some`).

A timestamp is compared with those of the first and the last segment before the segments are
scanned (`timequery`). Timestamps are set by the producers and need not be ordered, and so the last
segment may well be older than the others (`timequery_ne_find`). The segment found is the right one
exactly if the comparisons are (`timequery_eq_find_iff`).
-/

namespace Redpanda.CloudStorage

open Model List
open OffsetDelta (unset)

namespace SegmentMeta

variable (s : SegmentMeta)

/-- `base_kafka_offset`. -/
def baseKafkaOffset : Int :=
  s.baseOffset - if s.deltaOffset = unset then 0 else s.deltaOffset

/-- `next_kafka_offset`. -/
def nextKafkaOffset : Int :=
  nextOffset s.committedOffset -
    if s.deltaOffsetEnd = unset then 0 else s.deltaOffsetEnd

/-- The Kafka offset is one of the segment. -/
def HoldsKafka (o : Int) : Prop :=
  s.baseKafkaOffset ≤ o ∧ o < s.nextKafkaOffset
  deriving Decidable

/-- The second segment goes on where the first one ends, with its delta. -/
def FollowedBy (s t : SegmentMeta) : Prop :=
  t.baseOffset = nextOffset s.committedOffset ∧ t.deltaOffset = s.deltaOffsetEnd
  deriving Decidable

/-- The delta counts offsets that are no Kafka offsets: it is not negative, and over the segment it
    grows by at most the number of its offsets. -/
def HasDeltas : Prop :=
  0 ≤ s.deltaOffset ∧ s.deltaOffset ≤ s.deltaOffsetEnd ∧
    s.deltaOffsetEnd - s.deltaOffset ≤ nextOffset s.committedOffset - s.baseOffset
  deriving Decidable

variable {s t : SegmentMeta} {l : List SegmentMeta} {o : Int}

section

variable (h : s.HasDeltas)

include h

theorem HasDeltas.ne_unset : s.deltaOffset ≠ unset ∧ s.deltaOffsetEnd ≠ unset := by
  have : unset < 0 := by decide
  exact ⟨(this.trans_le h.1).ne', (this.trans_le (h.1.trans h.2.1)).ne'⟩

theorem baseKafkaOffset_eq : s.baseKafkaOffset = s.baseOffset - s.deltaOffset := by
  rw [baseKafkaOffset, if_neg h.ne_unset.1]

theorem nextKafkaOffset_eq :
    s.nextKafkaOffset = nextOffset s.committedOffset - s.deltaOffsetEnd := by
  rw [nextKafkaOffset, if_neg h.ne_unset.2]

theorem baseKafkaOffset_le_next : s.baseKafkaOffset ≤ s.nextKafkaOffset := by
  rw [baseKafkaOffset_eq h, nextKafkaOffset_eq h]
  linarith [h.2.2]

/-- Kafka offsets are never larger than log offsets. -/
theorem baseKafkaOffset_le : s.baseKafkaOffset ≤ s.baseOffset := by
  rw [baseKafkaOffset_eq h]
  linarith [h.1]

end

theorem FollowedBy.nextKafkaOffset_eq (h : s.FollowedBy t) (hs : s.HasDeltas) (ht : t.HasDeltas) :
    s.nextKafkaOffset = t.baseKafkaOffset := by
  rw [SegmentMeta.nextKafkaOffset_eq hs, baseKafkaOffset_eq ht, h.1, h.2]

/-- A segment ends, in Kafka offsets, before all the later ones begin. -/
theorem pairwise_next_le_base (hl : l.IsChain FollowedBy) (hd : ∀ s ∈ l, s.HasDeltas) :
    l.Pairwise fun s t => s.nextKafkaOffset ≤ t.baseKafkaOffset := by
  induction l with
  | nil => exact .nil
  | cons s l ih =>
    have hpair := ih hl.tail (forall_mem_cons.1 hd).2
    refine pairwise_cons.2 ⟨fun u hu => ?_, hpair⟩
    cases l with
    | nil => exact absurd hu not_mem_nil
    | cons t l =>
      have ht : t.HasDeltas := hd t (by simp)
      rw [(isChain_cons_cons.1 hl).1.nextKafkaOffset_eq (hd s mem_cons_self) ht]
      rcases mem_cons.1 hu with rfl | hu
      · rfl
      · exact (baseKafkaOffset_le_next ht).trans ((pairwise_cons.1 hpair).1 u hu)

end SegmentMeta

open SegmentMeta

variable {s prev : SegmentMeta} {rest : List SegmentMeta} {o t : Int}

/-- The scan of `segment_containing`: the segments from the iterator on, and the one before it. -/
def scanKafka (o : Int) : SegmentMeta → List SegmentMeta → Option SegmentMeta
  | back, [] =>
    if back.deltaOffsetEnd ≠ unset ∧ back.nextKafkaOffset ≤ o then none else some back
  | prev, s :: rest => if s.baseKafkaOffset > o then some prev else scanKafka o s rest

theorem scanKafka_eq_some (hl : (prev :: rest).IsChain FollowedBy)
    (hd : ∀ s ∈ prev :: rest, s.HasDeltas) (hprev : prev.baseKafkaOffset ≤ o) :
    scanKafka o prev rest = some s ↔ s ∈ prev :: rest ∧ s.HoldsKafka o := by
  induction rest generalizing prev with
  | nil =>
    rw [scanKafka, mem_singleton]
    split_ifs with hnext
    · refine iff_of_false nofun fun ⟨heq, hs⟩ => ?_
      exact hs.2.not_ge (heq ▸ hnext.2)
    · have hlt : o < prev.nextKafkaOffset :=
        not_le.1 fun hle => hnext ⟨(hd prev mem_cons_self).ne_unset.2, hle⟩
      rw [Option.some_inj, eq_comm, iff_self_and]
      exact fun heq => heq ▸ ⟨hprev, hlt⟩
  | cons t rest ih =>
    have hpair := pairwise_next_le_base hl hd
    obtain ⟨hlink, hl⟩ := isChain_cons_cons.1 hl
    have ht := hd t (by simp)
    have hnext := hlink.nextKafkaOffset_eq (hd prev mem_cons_self) ht
    rw [scanKafka]
    split_ifs with hlt
    · rw [Option.some_inj, mem_cons]
      refine ⟨fun heq => heq ▸ ⟨.inl rfl, hprev, hnext ▸ hlt⟩, ?_⟩
      -- All the segments after the first one begin above the offset.
      rintro ⟨heq | hs, hbase, -⟩
      · exact heq.symm
      · have := (pairwise_cons.1 hpair).1 s hs
        omega
    · rw [ih hl (forall_mem_cons.1 hd).2 (not_lt.1 hlt), mem_cons (b := prev)]
      -- The first segment ends where the second one begins.
      refine and_congr_left fun hs => ⟨.inr, fun h => h.resolve_left ?_⟩
      rintro rfl
      exact hlt (hnext ▸ hs.2)

namespace PartitionManifest

/-- `segment_containing`, for a Kafka offset. The segments before and after the iterator that
    `lower_bound` returns are kept apart. -/
def segmentContainingKafka (p : PartitionManifest) (o : Int) : Option SegmentMeta :=
  match (p.segments.takeWhile (·.baseOffset < o)).getLast?,
    p.segments.dropWhile (·.baseOffset < o) with
  | none, [] => none
  | none, first :: rest => if first.baseKafkaOffset > o then none else scanKafka o first rest
  | some prev, rest => scanKafka o prev rest

/-- The segment found for a Kafka offset is the one that holds it. -/
theorem segmentContainingKafka_eq_some (p : PartitionManifest) (o : Int) (s : SegmentMeta)
    (hl : p.segments.IsChain FollowedBy) (hd : ∀ s ∈ p.segments, s.HasDeltas) :
    p.segmentContainingKafka o = some s ↔ s ∈ p.segments ∧ s.HoldsKafka o := by
  have hsplit := takeWhile_append_dropWhile (l := p.segments) (p := (·.baseOffset < o))
  have hpair := pairwise_next_le_base hl hd
  rw [segmentContainingKafka]
  generalize hbefore : p.segments.takeWhile (·.baseOffset < o) = before at hsplit ⊢
  generalize p.segments.dropWhile (·.baseOffset < o) = rest at hsplit ⊢
  rw [← hsplit] at hl hd hpair ⊢
  rcases eq_nil_or_concat before with rfl | ⟨init, prev, rfl⟩
  · rw [getLast?_nil, nil_append]
    cases rest with
    | nil => simp
    | cons first rest =>
      dsimp only
      split_ifs with hfirst
      · refine iff_of_false nofun fun ⟨hs, hbase, hnext⟩ => ?_
        rcases mem_cons.1 hs with rfl | hs
        · omega
        · have := (pairwise_cons.1 hpair).1 s hs
          have := baseKafkaOffset_le_next (hd first (by simp))
          omega
      · exact scanKafka_eq_some hl hd (not_lt.1 hfirst)
  · rw [concat_eq_append, append_assoc, singleton_append] at hl hd hpair ⊢
    have hlt : prev.baseOffset < o := by
      have hmem : prev ∈ p.segments.takeWhile (·.baseOffset < o) := by simp [hbefore]
      simpa using mem_takeWhile_imp hmem
    have hprev := (baseKafkaOffset_le (hd prev (by simp))).trans hlt.le
    rw [getLast?_concat, mem_append]
    dsimp only
    rw [scanKafka_eq_some hl.right_of_append (fun s hs => hd s (mem_append_right _ hs)) hprev]
    -- The segments before the iterator's predecessor end below it.
    refine and_congr_left fun hs => ⟨.inr, fun h => h.resolve_left fun hinit => ?_⟩
    have := (pairwise_append.1 hpair).2.2 s hinit prev mem_cons_self
    exact hs.2.not_ge (this.trans hprev)

/-- A segment without Kafka offsets between two others. -/
theorem segmentContainingKafka_of_empty_segment :
    let s : SegmentMeta := ⟨1, 0, 9, 0, 2, 1, .v3⟩
    let t : SegmentMeta := ⟨1, 10, 11, 2, 4, 1, .v3⟩
    let u : SegmentMeta := ⟨1, 12, 19, 4, 4, 1, .v3⟩
    ({ segments := [s, t, u] } : PartitionManifest).segmentContainingKafka 8 = some u :=
  (segmentContainingKafka_eq_some _ _ _ (by decide) (by decide)).2 (by decide)

/-- The lookup misses Kafka offsets if there are more of them than log offsets, or if a delta
    counts more offsets than the segment has. -/
theorem segmentContainingKafka_of_no_deltas :
    (let s : SegmentMeta := ⟨1, 0, 9, -5, -5, 1, .v3⟩
      let t : SegmentMeta := ⟨1, 10, 19, -5, -5, 1, .v3⟩
      s.FollowedBy t ∧ s.HoldsKafka 12 ∧
        ({ segments := [s, t] } : PartitionManifest).segmentContainingKafka 12 = some t) ∧
    let s : SegmentMeta := ⟨1, 200, 209, 0, 100, 1, .v3⟩
    let t : SegmentMeta := ⟨1, 210, 219, 100, 100, 1, .v3⟩
    s.FollowedBy t ∧ t.HoldsKafka 115 ∧
      ({ segments := [s, t] } : PartitionManifest).segmentContainingKafka 115 = none := by
  decide

end PartitionManifest

/-- The timestamps of a segment, which only the time query reads. -/
structure TimedSegment extends SegmentMeta where
  baseTimestamp : Int
  maxTimestamp : Int
  deriving DecidableEq

/-- `timequery`, on the segments of a manifest; `none` if its assertion fails. -/
def timequery (segments : List TimedSegment) (t : Int) : Option (Option TimedSegment) :=
  match segments.head?, segments.getLast? with
  | some first, some last =>
    if t < first.baseTimestamp then some first
    else if t > last.maxTimestamp then some none
    else if last.maxTimestamp = first.baseTimestamp then some first
    -- Single-offset case should have hit the branch above
    else if last.committedOffset > first.baseOffset then
      let targetIx := segments.findIdx? fun s => s.maxTimestamp ≥ t ∨ s.baseTimestamp > t
      some segments[targetIx.getD 0]?
    else none
  | _, _ => some none

/-- What the comparisons before the scan take for granted, for a timestamp that is not before the
    first segment: if the last segment ends before it then all do, and otherwise the manifest has
    more than one offset, unless it begins and ends at the same time. -/
def BoundsAgree (segments : List TimedSegment) (t : Int) : Prop :=
  ∀ first ∈ segments.head?, ∀ last ∈ segments.getLast?, first.baseTimestamp ≤ t →
    (last.maxTimestamp < t → ∀ s ∈ segments, s.maxTimestamp < t) ∧
    (t ≤ last.maxTimestamp → last.maxTimestamp ≠ first.baseTimestamp →
      first.baseOffset < last.committedOffset)
  deriving Decidable

/-- The scan finds the first segment that ends at the timestamp or later, if there is one. -/
theorem getElem?_findIdx?_eq_find? {segments : List TimedSegment}
    (hle : ∀ s ∈ segments, s.baseTimestamp ≤ s.maxTimestamp)
    (hfound : ∃ s ∈ segments, t ≤ s.maxTimestamp) :
    segments[(segments.findIdx? fun s => s.maxTimestamp ≥ t ∨ s.baseTimestamp > t).getD 0]? =
      segments.find? (t ≤ ·.maxTimestamp) := by
  -- the second part of the condition follows from the first one
  have hcond : ∀ s ∈ segments,
      decide (s.maxTimestamp ≥ t ∨ s.baseTimestamp > t) = decide (t ≤ s.maxTimestamp) := by
    intro s hs
    have := hle s hs
    rw [decide_eq_decide]
    omega
  have hfound : ∃ s, s ∈ segments ∧
      decide (s.maxTimestamp ≥ t ∨ s.baseTimestamp > t) = true := by
    obtain ⟨s, hs, ht⟩ := hfound
    exact ⟨s, hs, decide_eq_true (.inl ht)⟩
  rw [findIdx?_eq_some_of_exists hfound, Option.getD_some, ← find?_eq_getElem?_findIdx,
    find?_congr hcond]

/-- The query finds the first segment that ends at the timestamp or later, exactly if the
    comparisons before its scan are right. -/
theorem timequery_eq_find_iff (segments : List TimedSegment) (t : Int)
    (hle : ∀ s ∈ segments, s.baseTimestamp ≤ s.maxTimestamp) :
    timequery segments t = some (segments.find? (t ≤ ·.maxTimestamp)) ↔
      BoundsAgree segments t := by
  cases segments with
  | nil => exact iff_of_true rfl nofun
  | cons first rest =>
    have hfirst := hle first mem_cons_self
    obtain ⟨last, hgetLast⟩ : ∃ last, (first :: rest).getLast? = some last :=
      ⟨_, getLast?_cons⟩
    have hmem := mem_of_getLast? hgetLast
    have hagree : BoundsAgree (first :: rest) t ↔ (first.baseTimestamp ≤ t →
        (last.maxTimestamp < t → ∀ s ∈ first :: rest, s.maxTimestamp < t) ∧
        (t ≤ last.maxTimestamp → last.maxTimestamp ≠ first.baseTimestamp →
          first.baseOffset < last.committedOffset)) := by
      simp only [BoundsAgree, head?_cons, hgetLast, Option.mem_def, Option.some_inj, forall_eq']
    rw [hagree, timequery, head?_cons, hgetLast]
    dsimp only
    split_ifs with hbase hmax heq hspan
    · rw [find?_cons_of_pos (by simp; omega)]
      exact iff_of_true rfl fun h => absurd h hbase.not_ge
    · -- nothing is returned, which is right if no segment ends so late
      rw [Option.some_inj, eq_comm, find?_eq_none]
      refine ⟨fun h _ => ⟨fun _ s hs => by simpa using h s hs, fun h' => absurd hmax h'.not_gt⟩,
        fun h s hs => ?_⟩
      simpa using (h (not_lt.1 hbase)).1 hmax s hs
    · rw [find?_cons_of_pos (by simp; omega)]
      exact iff_of_true rfl fun _ => ⟨fun h => absurd h hmax, fun _ h => absurd heq h⟩
    · rw [Option.some_inj]
      exact iff_of_true (getElem?_findIdx?_eq_find? hle ⟨last, hmem, not_lt.1 hmax⟩) fun _ =>
        ⟨fun h => absurd h hmax, fun _ _ => hspan⟩
    · exact iff_of_false nofun fun h => hspan ((h (not_lt.1 hbase)).2 (not_lt.1 hmax) heq)

/-- Timestamps out of order, none of them above that of the last segment; and a single offset. -/
theorem timequery_unordered :
    (let s : TimedSegment := ⟨⟨1, 0, 9, 0, 0, 1, .v3⟩, 50, 100⟩
      let t : TimedSegment := ⟨⟨1, 10, 19, 0, 0, 1, .v3⟩, 10, 20⟩
      let u : TimedSegment := ⟨⟨1, 20, 29, 0, 0, 1, .v3⟩, 60, 120⟩
      timequery [s, t, u] 110 = some (some u)) ∧
    let s : TimedSegment := ⟨⟨1, 0, 0, 0, 0, 1, .v3⟩, 10, 10⟩
    timequery [s] 10 = some (some s) :=
  ⟨(timequery_eq_find_iff _ _ (by decide)).2 (by decide),
    (timequery_eq_find_iff _ _ (by decide)).2 (by decide)⟩

/-- The query overlooks the first segment if the last one is older, and its assertion fails if the
    manifest has a single offset with two timestamps. -/
theorem timequery_ne_find :
    (let s : TimedSegment := ⟨⟨1, 0, 9, 0, 0, 1, .v3⟩, 10, 100⟩
      let t : TimedSegment := ⟨⟨1, 10, 19, 0, 0, 1, .v3⟩, 20, 50⟩
      timequery [s, t] 80 = some none ∧ 80 ≤ s.maxTimestamp) ∧
    timequery [⟨⟨1, 0, 0, 0, 0, 1, .v3⟩, 10, 20⟩] 15 = none := by
  decide

end Redpanda.CloudStorage
