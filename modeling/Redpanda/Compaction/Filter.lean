import Redpanda.Lib.Run
import Redpanda.Model.Record

/-!
# Filtering the records of a batch

Compaction rewrites a batch from those of its records that are to be kept. The records are written
again as they are; of the header, the count and the timestamps are computed anew. There are two
implementations: that of local segments (`SegmentFilter.filter`), which also installs placeholder
batches and unsets the transactional bit, and that of cloud topics (`filterBatch`). They share the
arithmetic of the header (`RecordBatchHeader.filtered`).

The answer of a filter is `none` where the source throws, and `some none` for a batch that is
removed. Batches are decompressed before they are filtered, so there is no compression here.
Checksums are left out. Timestamps are unbounded integers.

* `Outcome`: what a filter makes of a batch (`Filter.outcome_of_apply`), and
  `Filter.exists_apply_eq_some`: it does not throw.
* `RecordBatch.Preserved`: the surviving records are the ones of the original batch, with their
  offsets and timestamps.
* `Outcome.preserved_iff`: this holds exactly if the timestamps of the header happen to fit
  the records that are kept (`Filter.Fitting`).
* `Filter.preserved_of_run`: so it holds after any number of filters whose timestamps fit.
* `Filter.exists_timestamp_ne`: otherwise it fails. The timestamp of the first record that is kept
  is added to the first timestamp of the header, but the deltas of the records stay as they are.
-/

namespace Redpanda.Compaction

open Lib Model List
open Option (bind_eq_bind bind_some)

/-- `model::record_batch_type`. -/
inductive RecordBatchType
  | raftData | raftConfiguration | controller | kvstore | checkpoint | topicManagementCmd
  | ghostBatch | idAllocator | txPrepare | txFence | tmUpdate | userManagementCmd
  | aclManagementCmd | groupPrepareTx | groupCommitTx | groupAbortTx | nodeManagementCmd
  | dataPolicyManagementCmd | archivalMetadata | clusterConfigCmd | featureUpdate
  | clusterBootstrapCmd | versionFence | txTmHostedTrasactions | prefixTruncate | pluginUpdate
  | txRegistry | clusterRecoveryCmd | compactionPlaceholder | roleManagementCmd | clientQuota
  | dataMigrationCmd | groupFenceTx | partitionPropertiesUpdate | datalakeCoordinator
  | ctpPlaceholder | ctpStmCommand | datalakeTranslationState | clusterLink | groupBlock | l1Stm
  | ctReadReplicaStm
  deriving DecidableEq

open RecordBatchType in
/-- `offset_translator_batch_types`. -/
def offsetTranslatorBatchTypes : List RecordBatchType :=
  [raftConfiguration, archivalMetadata, versionFence, prefixTruncate, partitionPropertiesUpdate,
    datalakeTranslationState, groupBlock, ctpStmCommand]

/-- `is_filterable`. -/
def isFilterable (t : RecordBatchType) : Bool :=
  t ≠ .compactionPlaceholder ∧ t ∉ offsetTranslatorBatchTypes

/-- `model::timestamp_type`. -/
inductive TimestampType
  | createTime
  | appendTime
  deriving DecidableEq

/-- `model::record_batch_header`. -/
structure RecordBatchHeader where
  sizeBytes : Nat := 0
  baseOffset : Int
  type : RecordBatchType
  timestampType : TimestampType := .createTime
  isTransactional : Bool := false
  isControl : Bool := false
  lastOffsetDelta : Int
  firstTimestamp : Int
  maxTimestamp : Int
  producerId : Int
  producerEpoch : Int
  baseSequence : Int
  recordCount : Nat := 0
  deriving DecidableEq

/-- `model::record_batch`. -/
structure RecordBatch where
  header : RecordBatchHeader
  data : Bytes
  deriving DecidableEq

namespace RecordBatchHeader

variable (h : RecordBatchHeader)

/-- `reset_size_checksum_metadata`, where the packed header has 61 bytes. -/
def resetSize (data : Bytes) : RecordBatchHeader :=
  { h with sizeBytes := 61 + data.length }

/-- The header of a committed data batch loses its transactional bit. -/
def removeTransactional (enabled : Bool) : RecordBatchHeader :=
  if h.type = .raftData ∧ h.isTransactional ∧ ¬ h.isControl ∧ enabled then
    { h with isTransactional := false }
  else h

/-- The header of a batch of which `count` records are kept, from `first` to `last`. -/
def filtered (first last : Record) (count : Nat) : RecordBatchHeader :=
  let firstTime := h.firstTimestamp + first.timestampDelta
  { h with
    firstTimestamp := firstTime
    maxTimestamp :=
      match h.timestampType with
      | .createTime => firstTime + last.timestampDelta
      | .appendTime => h.maxTimestamp
    recordCount := count }

/-- The header of `make_placeholder_batch`. -/
def placeholder : RecordBatchHeader where
  baseOffset := h.baseOffset
  type := .compactionPlaceholder
  lastOffsetDelta := h.lastOffsetDelta
  firstTimestamp := h.firstTimestamp
  maxTimestamp := h.maxTimestamp
  producerId := h.producerId
  producerEpoch := h.producerEpoch
  baseSequence := h.baseSequence

end RecordBatchHeader

namespace RecordBatch

variable (b : RecordBatch)

/-- The records of a batch, as its iterator reads them. -/
def records : Option (List Record) :=
  parseRecords b.header.recordCount b.data

def lastOffset : Int :=
  b.header.baseOffset + b.header.lastOffsetDelta

/-- The offset of a record in the log. -/
def offsetOf (r : Record) : Int :=
  b.header.baseOffset + r.offsetDelta

/-- The timestamp of a record, as a consumer computes it. -/
def timestampOf (r : Record) : Int :=
  match b.header.timestampType with
  | .createTime => b.header.firstTimestamp + r.timestampDelta
  | .appendTime => b.header.maxTimestamp

/-- The offset deltas of the records to keep. -/
def offsetDeltasToKeep (keep : Record → Bool → Bool) : List Record → List Int
  | [] => []
  | r :: rs =>
    if keep r rs.isEmpty then r.offsetDelta :: offsetDeltasToKeep keep rs
    else offsetDeltasToKeep keep rs

/-- The records that the filter loop writes. -/
def select (offsetDeltas : List Int) (rs : List Record) : List Record :=
  rs.filter fun r => r.offsetDelta ∈ offsetDeltas

/-- The batch of the records `kept`, with the header `f` makes of the computed one. -/
def rewrite (f : RecordBatchHeader → RecordBatchHeader) (b : RecordBatch) :
    List Record → Option RecordBatch
  | [] => none
  | first :: rest =>
    let kept := first :: rest
    let data := kept.flatMap Record.appendRecordToBuffer
    let last := kept.getLast (cons_ne_nil first rest)
    some ⟨(f (b.header.filtered first last kept.length)).resetSize data, data⟩

/-- `filter::filter_batch`, with `do_filter_batch`. -/
def filterBatch (keep : Record → Bool → Bool) (b : RecordBatch) : Option (Option RecordBatch) :=
  if ¬ isFilterable b.header.type then some (some b)
  else do
    let rs ← b.records
    let offsetDeltas := offsetDeltasToKeep keep rs
    if offsetDeltas = [] then some none
    else if offsetDeltas.length = b.header.recordCount then some (some b)
    else some (b.rewrite id (select offsetDeltas rs))

end RecordBatch

open RecordBatch (offsetDeltasToKeep select timestampOf)

/-- `copy_data_segment_reducer`, as far as its filter goes. -/
structure SegmentFilter where
  shouldKeep : RecordBatch → Record → Bool → Bool
  segmentLastOffset : Int
  isBatchInIdempotentWindow : RecordBatchHeader → Bool
  compactionPlaceholderEnabled : Bool
  unsetTransactionBitEnabled : Bool

namespace SegmentFilter

/-- `copy_data_segment_reducer::make_placeholder_batch`. -/
def makePlaceholderBatch (h : RecordBatchHeader) : RecordBatch :=
  ⟨h.placeholder.resetSize [], []⟩

variable (s : SegmentFilter) (b : RecordBatch)

/-- A batch all of whose records are kept. -/
def keepAll : RecordBatch :=
  let h := b.header.removeTransactional s.unsetTransactionBitEnabled
  if h = b.header then b else { b with header := h.resetSize b.data }

/-- `copy_data_segment_reducer::filter`. -/
def filter : Option (Option RecordBatch) :=
  let isLastBatchInSegment := b.lastOffset = s.segmentLastOffset
  if b.header.type = .compactionPlaceholder ∧ ¬ isLastBatchInSegment ∧
      ¬ s.isBatchInIdempotentWindow b.header then some none
  else if ¬ isFilterable b.header.type then some (some b)
  else do
    let rs ← b.records
    let offsetDeltas := offsetDeltasToKeep (s.shouldKeep b) rs
    if offsetDeltas = [] then
      if s.compactionPlaceholderEnabled ∧
          (isLastBatchInSegment ∨ s.isBatchInIdempotentWindow b.header) then
        some (some (makePlaceholderBatch b.header))
      else some none
    else if offsetDeltas.length = b.header.recordCount then some (some (s.keepAll b))
    else
      some (b.rewrite (·.removeTransactional s.unsetTransactionBitEnabled)
        (select offsetDeltas rs))

end SegmentFilter

/-- One application of a filter. -/
inductive Filter
  | segment (s : SegmentFilter)
  | cloud (keep : Record → Bool → Bool)

namespace Filter

def apply : Filter → RecordBatch → Option (Option RecordBatch)
  | segment s, b => s.filter b
  | cloud keep, b => b.filterBatch keep

variable (f : Filter) (b : RecordBatch) (rs : List Record)

/-- The offset deltas of the records to keep, among the records `rs` of a batch. -/
def offsetDeltas : List Int :=
  match f with
  | segment s => offsetDeltasToKeep (s.shouldKeep b) rs
  | cloud keep => offsetDeltasToKeep keep rs

/-- Whether the filter computes the header of the batch anew. -/
def Rewrites : Prop :=
  isFilterable b.header.type ∧ (f.offsetDeltas b rs).length ≠ rs.length
  deriving Decidable

/-- The records that survive. -/
def kept : List Record :=
  if f.Rewrites b rs then select (f.offsetDeltas b rs) rs else rs

end Filter

namespace RecordBatch

/-- The batch `b` holds the records `rs`. -/
structure Encodes (b : RecordBatch) (rs : List Record) : Prop where
  recordCount : b.header.recordCount = rs.length
  data : b.data = rs.flatMap Record.appendRecordToBuffer
  wf : ∀ r ∈ rs, r.Wf

/-- The maximum timestamp of the header is the largest one of the records `rs`. -/
def MaxExact (b : RecordBatch) (rs : List Record) : Prop :=
  (∀ r ∈ rs, b.timestampOf r ≤ b.header.maxTimestamp) ∧
    ∃ r ∈ rs, b.timestampOf r = b.header.maxTimestamp
  deriving Decidable

/-- What compaction keeps of the batch `b` with the records `rs`, in the batch `b'`: its records
    are the records `rs'` among `rs`, with the same offsets and timestamps, and the header has the
    same range of offsets and producer, and the right maximum timestamp. -/
structure Preserved (b : RecordBatch) (rs : List Record) (b' : RecordBatch)
    (rs' : List Record) : Prop where
  records : b'.records = some rs'
  sublist : rs' <+ rs
  offset : ∀ r ∈ rs', b'.offsetOf r = b.offsetOf r
  timestamp : ∀ r ∈ rs', b'.timestampOf r = b.timestampOf r
  baseOffset : b'.header.baseOffset = b.header.baseOffset
  lastOffset : b'.lastOffset = b.lastOffset
  producerId : b'.header.producerId = b.header.producerId
  producerEpoch : b'.header.producerEpoch = b.header.producerEpoch
  baseSequence : b'.header.baseSequence = b.header.baseSequence
  maxTimestamp : b'.header.timestampType = .createTime → rs' ≠ [] → b'.MaxExact rs'

variable {b b' b'' : RecordBatch} {rs rs' rs'' : List Record}

theorem Encodes.records_eq (hb : b.Encodes rs) : b.records = some rs := by
  rw [records, hb.recordCount, hb.data]
  exact parseRecords_flatMap hb.wf

theorem Preserved.trans (h : b.Preserved rs b' rs') (h' : b'.Preserved rs' b'' rs'') :
    b.Preserved rs b'' rs'' where
  records := h'.records
  sublist := h'.sublist.trans h.sublist
  offset r hr := (h'.offset r hr).trans (h.offset r (h'.sublist.subset hr))
  timestamp r hr := (h'.timestamp r hr).trans (h.timestamp r (h'.sublist.subset hr))
  baseOffset := h'.baseOffset.trans h.baseOffset
  lastOffset := h'.lastOffset.trans h.lastOffset
  producerId := h'.producerId.trans h.producerId
  producerEpoch := h'.producerEpoch.trans h.producerEpoch
  baseSequence := h'.baseSequence.trans h.baseSequence
  maxTimestamp := h'.maxTimestamp

theorem select_nil : select [] rs = [] :=
  filter_eq_nil_iff.2 fun _ _ => by simp

end RecordBatch

/-! ## What a filter makes of a batch -/

theorem RecordBatchHeader.exists_removeTransactional (h : RecordBatchHeader) (enabled : Bool) :
    ∃ x, h.removeTransactional enabled = { h with isTransactional := x } := by
  rw [removeTransactional]
  split
  · exact ⟨false, rfl⟩
  · exact ⟨h.isTransactional, rfl⟩

theorem SegmentFilter.exists_keepAll (s : SegmentFilter) (b : RecordBatch) :
    ∃ x n, s.keepAll b =
      { b with header := { b.header with isTransactional := x, sizeBytes := n } } := by
  obtain ⟨x, hx⟩ := b.header.exists_removeTransactional s.unsetTransactionBitEnabled
  rw [keepAll, hx]
  split
  · exact ⟨b.header.isTransactional, b.header.sizeBytes, rfl⟩
  · exact ⟨x, _, rfl⟩

/-- The batch `b`, whose records are `rs`, after a filter, and its records. -/
inductive Outcome (f : Filter) (b : RecordBatch) (rs : List Record) :
    List Record → RecordBatch → Prop
  | unchanged (x : Bool) (n : Nat) : ¬ f.Rewrites b rs →
    Outcome f b rs rs { b with header := { b.header with isTransactional := x, sizeBytes := n } }
  | placeholder : Outcome f b rs [] (SegmentFilter.makePlaceholderBatch b.header)
  | rewritten (first : Record) (rest : List Record) (x : Bool) (n : Nat) : f.Rewrites b rs →
    first :: rest <+ rs →
    Outcome f b rs (first :: rest)
      { header :=
          { b.header.filtered first ((first :: rest).getLast (cons_ne_nil first rest))
              (first :: rest).length with
            isTransactional := x, sizeBytes := n }
        data := (first :: rest).flatMap Record.appendRecordToBuffer }

variable {f : Filter} {b b' : RecordBatch} {rs rs' : List Record}

namespace Filter

theorem kept_eq_of_offsetDeltas_eq_nil (hf : isFilterable b.header.type)
    (hd : f.offsetDeltas b rs = []) : f.kept b rs = [] := by
  by_cases hrs : rs = []
  · rw [kept, hrs]
    split <;> rfl
  · have hrewrites : f.Rewrites b rs := by
      refine ⟨hf, fun hlength => hrs ?_⟩
      rw [hd, length_nil] at hlength
      exact length_eq_zero_iff.1 hlength.symm
    rw [kept, if_pos hrewrites, hd, RecordBatch.select_nil]

/-- The batch that the filter computes anew. -/
theorem outcome_of_rewrite {g : RecordBatchHeader → RecordBatchHeader}
    (hg : ∀ h, ∃ x, g h = { h with isTransactional := x }) (hrewrites : f.Rewrites b rs)
    (hb' : b.rewrite g (select (f.offsetDeltas b rs) rs) = some b') :
    Outcome f b rs (f.kept b rs) b' := by
  have hsub : select (f.offsetDeltas b rs) rs <+ rs := filter_sublist
  rw [kept, if_pos hrewrites]
  rcases hkept : select (f.offsetDeltas b rs) rs with _ | ⟨first, rest⟩
  · rw [hkept] at hb'
    exact nomatch hb'
  · rw [hkept] at hb' hsub
    obtain ⟨x, hx⟩ := hg (b.header.filtered first
      ((first :: rest).getLast (cons_ne_nil first rest)) (first :: rest).length)
    cases hb'
    rw [hx]
    exact .rewritten first rest x _ hrewrites hsub

theorem outcome_of_not_filterable (hf : ¬ isFilterable b.header.type) :
    Outcome f b rs (f.kept b rs) b := by
  have hrewrites : ¬ f.Rewrites b rs := fun h => hf h.1
  rw [kept, if_neg hrewrites]
  exact .unchanged b.header.isTransactional b.header.sizeBytes hrewrites

theorem outcome_of_length_eq (x : Bool) (n : Nat)
    (hlength : (f.offsetDeltas b rs).length = rs.length) :
    Outcome f b rs (f.kept b rs)
      { b with header := { b.header with isTransactional := x, sizeBytes := n } } := by
  have hrewrites : ¬ f.Rewrites b rs := fun h => h.2 hlength
  rw [kept, if_neg hrewrites]
  exact .unchanged x n hrewrites

variable (hb : b.Encodes rs)

include hb

theorem outcome_of_filterBatch {keep : Record → Bool → Bool}
    (h : b.filterBatch keep = some (some b')) :
    Outcome (.cloud keep) b rs ((cloud keep).kept b rs) b' := by
  rw [RecordBatch.filterBatch] at h
  by_cases hf : isFilterable b.header.type
  · rw [if_neg (not_not.2 hf), hb.records_eq, bind_eq_bind, bind_some] at h
    by_cases hnil : offsetDeltasToKeep keep rs = []
    · simp [if_pos hnil] at h
    · rw [if_neg hnil] at h
      by_cases hlength : (offsetDeltasToKeep keep rs).length = b.header.recordCount
      · rw [if_pos hlength] at h
        cases Option.some.inj h
        exact outcome_of_length_eq b.header.isTransactional b.header.sizeBytes
          (hlength.trans hb.recordCount)
      · rw [if_neg hlength] at h
        exact outcome_of_rewrite (fun h => ⟨h.isTransactional, rfl⟩)
          ⟨hf, fun h => hlength (h.trans hb.recordCount.symm)⟩ (Option.some.inj h)
  · rw [if_pos hf] at h
    cases Option.some.inj h
    exact outcome_of_not_filterable hf

theorem outcome_of_segmentFilter {s : SegmentFilter} (h : s.filter b = some (some b')) :
    Outcome (.segment s) b rs ((segment s).kept b rs) b' := by
  rw [SegmentFilter.filter] at h
  split at h
  · exact nomatch h
  by_cases hf : isFilterable b.header.type
  · rw [if_neg (not_not.2 hf), hb.records_eq, bind_eq_bind, bind_some] at h
    by_cases hnil : offsetDeltasToKeep (s.shouldKeep b) rs = []
    · rw [if_pos hnil] at h
      split at h
      · cases Option.some.inj h
        have hdeltas : (segment s).offsetDeltas b rs = [] := hnil
        rw [kept_eq_of_offsetDeltas_eq_nil hf hdeltas]
        exact .placeholder
      · exact nomatch h
    · rw [if_neg hnil] at h
      by_cases hlength :
          (offsetDeltasToKeep (s.shouldKeep b) rs).length = b.header.recordCount
      · rw [if_pos hlength] at h
        cases Option.some.inj h
        obtain ⟨x, n, hkeep⟩ := s.exists_keepAll b
        rw [hkeep]
        exact outcome_of_length_eq x n (hlength.trans hb.recordCount)
      · rw [if_neg hlength] at h
        exact outcome_of_rewrite
          (fun h => h.exists_removeTransactional s.unsetTransactionBitEnabled)
          ⟨hf, fun h => hlength (h.trans hb.recordCount.symm)⟩ (Option.some.inj h)
  · rw [if_pos hf] at h
    cases Option.some.inj h
    exact outcome_of_not_filterable hf

/-- A filter does not throw. -/
theorem exists_apply_eq_some : ∃ out, f.apply b = some out := by
  cases f with
  | segment s =>
    rw [apply, SegmentFilter.filter, hb.records_eq]
    simp only [bind_eq_bind, bind_some]
    split_ifs <;> exact ⟨_, rfl⟩
  | cloud keep =>
    rw [apply, RecordBatch.filterBatch, hb.records_eq]
    simp only [bind_eq_bind, bind_some]
    split_ifs <;> exact ⟨_, rfl⟩

theorem outcome_of_apply (h : f.apply b = some (some b')) : Outcome f b rs (f.kept b rs) b' := by
  cases f with
  | segment s => exact outcome_of_segmentFilter hb h
  | cloud keep => exact outcome_of_filterBatch hb h

end Filter

namespace Outcome

theorem sublist (h : Outcome f b rs rs' b') : rs' <+ rs := by
  cases h with
  | unchanged => exact Sublist.refl rs
  | placeholder => exact nil_sublist rs
  | rewritten _ _ _ _ _ hsub => exact hsub

theorem encodes (h : Outcome f b rs rs' b') (hb : b.Encodes rs) : b'.Encodes rs' := by
  have hwf : ∀ r ∈ rs', r.Wf := fun r hr => hb.wf r (h.sublist.subset hr)
  cases h with
  | unchanged => exact ⟨hb.recordCount, hb.data, hwf⟩
  | placeholder | rewritten => exact ⟨rfl, rfl, hwf⟩

end Outcome

/-! ## Timestamps -/

namespace Filter

/-- The timestamps of the header fit the records `rs'` that are kept of a create-time batch. If the
    header is computed anew, the first of them has the timestamp of the header and the last one the
    largest timestamp, otherwise the maximum timestamp is right already. -/
def Fitting (f : Filter) (b : RecordBatch) (rs rs' : List Record) : Prop :=
  b.header.timestampType = .createTime → rs' ≠ [] →
    if f.Rewrites b rs then
      (∀ first ∈ rs'.head?, first.timestampDelta = 0) ∧
        ∀ last ∈ rs'.getLast?, ∀ r ∈ rs', r.timestampDelta ≤ last.timestampDelta
    else b.MaxExact rs'
  deriving Decidable

end Filter

namespace Outcome

/-- Apart from the timestamps, everything is preserved. -/
theorem preserved (h : Outcome f b rs rs' b') (hb : b.Encodes rs)
    (htimestamp : ∀ r ∈ rs', b'.timestampOf r = b.timestampOf r)
    (hmax : b'.header.timestampType = .createTime → rs' ≠ [] → b'.MaxExact rs') :
    b.Preserved rs b' rs' := by
  have hrecords := (h.encodes hb).records_eq
  have hsub := h.sublist
  cases h with
  | unchanged | rewritten | placeholder =>
    exact ⟨hrecords, hsub, fun _ _ => rfl, htimestamp, rfl, rfl, rfl, rfl, rfl, hmax⟩

section

variable (hc : b.header.timestampType = .createTime)

include hc

/-- The timestamps of a batch whose header is computed anew. -/
theorem timestampOf_filtered {first last r : Record} {count n : Nat} {x : Bool} {data : Bytes} :
    timestampOf
        ⟨{ b.header.filtered first last count with isTransactional := x, sizeBytes := n }, data⟩ r =
      b.timestampOf r + first.timestampDelta := by
  simp only [timestampOf, RecordBatchHeader.filtered, hc]
  omega

theorem maxTimestamp_filtered {first last : Record} {count : Nat} :
    (b.header.filtered first last count).maxTimestamp =
      b.timestampOf last + first.timestampDelta := by
  simp only [timestampOf, RecordBatchHeader.filtered, hc]
  omega

theorem timestampOf_le_iff {r r' : Record} :
    b.timestampOf r ≤ b.timestampOf r' ↔ r.timestampDelta ≤ r'.timestampDelta := by
  simp only [timestampOf, hc]
  omega

end

/-- What a filter leaves of a batch is preserved exactly if the timestamps fit. -/
theorem preserved_iff (h : Outcome f b rs rs' b') (hb : b.Encodes rs) :
    b.Preserved rs b' rs' ↔ f.Fitting b rs rs' := by
  cases h with
  | placeholder =>
    refine ⟨fun _ _ hne => absurd rfl hne, fun _ => ?_⟩
    exact (placeholder (f := f)).preserved hb nofun fun _ hne => absurd rfl hne
  | unchanged x n hrewrites =>
    refine ⟨fun hp hc hne => ?_, fun hfit => ?_⟩
    · rw [if_neg hrewrites]
      exact hp.maxTimestamp hc hne
    · refine (unchanged x n hrewrites).preserved hb (fun _ _ => rfl) fun hc hne => ?_
      have hmax := hfit hc hne
      rwa [if_neg hrewrites] at hmax
  | rewritten first rest x n hrewrites hsub =>
    have hne := cons_ne_nil first rest
    have hlast : (first :: rest).getLast hne ∈ first :: rest := getLast_mem hne
    refine ⟨fun hp hc _ => ?_, fun hfit => ?_⟩
    · rw [if_pos hrewrites]
      -- the first timestamp becomes that of the first record, so the two agree iff its delta is 0
      have hzero : first.timestampDelta = 0 := by
        have := hp.timestamp first mem_cons_self
        rw [timestampOf_filtered hc] at this
        omega
      refine ⟨?_, ?_⟩
      · rintro _ ⟨⟩
        exact hzero
      -- the maximum becomes the timestamp of the last record
      · intro last hl r hr
        rw [getLast?_eq_some_getLast hne] at hl
        cases hl
        have hle := (hp.maxTimestamp hc hne).1 r hr
        rw [timestampOf_filtered hc, maxTimestamp_filtered hc] at hle
        exact (timestampOf_le_iff hc).1 (by omega)
    · refine (rewritten first rest x n hrewrites hsub).preserved hb (fun r hr => ?_) fun hc _ => ?_
      · by_cases hc : b.header.timestampType = .createTime
        · have hzero := (hfit hc hne)
          rw [if_pos hrewrites] at hzero
          rw [timestampOf_filtered hc, hzero.1 first rfl, add_zero]
        · have ha : b.header.timestampType = .appendTime := by
            cases ht : b.header.timestampType with
            | createTime => exact absurd ht hc
            | appendTime => rfl
          simp only [timestampOf, RecordBatchHeader.filtered, ha]
      · have hc' : b.header.timestampType = .createTime := hc
        have hfit := hfit hc' hne
        rw [if_pos hrewrites] at hfit
        refine ⟨fun r hr => ?_, (first :: rest).getLast hne, hlast, ?_⟩
        · have hle := hfit.2 _ (getLast?_eq_some_getLast hne) r hr
          rw [timestampOf_filtered hc', maxTimestamp_filtered hc']
          exact Int.add_le_add_right ((timestampOf_le_iff hc').2 hle) _
        · rw [timestampOf_filtered hc', maxTimestamp_filtered hc']

end Outcome

/-! ## Any number of filters -/

namespace Filter

/-- The timestamps of the header fit the records that the filter keeps. -/
def Fits (f : Filter) (b : RecordBatch) : Prop :=
  ∀ rs ∈ b.records, f.Fitting b rs (f.kept b rs)
  deriving Decidable

/-- The batch after a filter, if it is not removed. -/
def next (b : RecordBatch) (f : Filter) : Option RecordBatch :=
  (f.apply b).join

/-- A filter whose timestamps fit. -/
def FittingStep (b : RecordBatch) (f : Filter) (b' : RecordBatch) : Prop :=
  f.Fits b ∧ next b f = some b'

variable {fs : List Filter}

theorem preserved_of_step (hb : b.Encodes rs) (hstep : FittingStep b f b') :
    b'.Encodes (f.kept b rs) ∧ b.Preserved rs b' (f.kept b rs) := by
  have houtcome := outcome_of_apply hb (Option.join_eq_some_iff.1 hstep.2)
  exact ⟨houtcome.encodes hb, (houtcome.preserved_iff hb).2 (hstep.1 rs hb.records_eq)⟩

/-- Compaction does not alter surviving records: after any number of filters whose timestamps fit,
    the records of the batch are records of the original one with the same offsets and timestamps,
    and the header has the same range of offsets and producer, and the right maximum timestamp. -/
theorem preserved_of_run (hb : b.Encodes rs) (hrun : Run FittingStep b (f :: fs) b') :
    ∃ rs', b.Preserved rs b' rs' := by
  induction fs generalizing b rs f with
  | nil =>
    obtain _ | ⟨hstep, hrun⟩ := hrun
    cases hrun
    exact ⟨_, (preserved_of_step hb hstep).2⟩
  | cons g fs ih =>
    obtain _ | ⟨hstep, hrun⟩ := hrun
    obtain ⟨hencodes, hpreserved⟩ := preserved_of_step hb hstep
    obtain ⟨rs', hrest⟩ := ih hencodes hrun
    exact ⟨rs', hpreserved.trans hrest⟩

/-! ### Two batches -/

/-- A record with one byte of key and value, and small deltas. -/
def smallRecord (key : UInt8) (timestampDelta offsetDelta : Int) : Record where
  sizeBytes := 8
  attributes := 0
  timestampDelta := timestampDelta
  offsetDelta := offsetDelta
  keySize := 1
  key := [key]
  valueSize := 1
  value := [key]
  headers := []

theorem smallRecord_wf {key : UInt8} {timestampDelta offsetDelta : Int}
    (hsize : (8 : Int) = (smallRecord key timestampDelta offsetDelta).body.length)
    (ht : Varint.Fits timestampDelta) (ho : FitsInt32 offsetDelta) :
    (smallRecord key timestampDelta offsetDelta).Wf := by
  have hone : FitsInt32 1 := by decide
  have height : FitsInt32 8 := by decide
  exact ⟨hsize, height, ht, ho, ⟨hone, rfl⟩, ⟨hone, rfl⟩, nofun⟩

/-- Three records at the timestamps 100, 105 and 107. -/
def threeRecords : List Record :=
  [smallRecord 1 0 0, smallRecord 2 5 1, smallRecord 1 7 2]

theorem threeRecords_wf : ∀ r ∈ threeRecords, r.Wf := by
  refine forall_mem_cons.2 ⟨?_, forall_mem_cons.2 ⟨?_, forall_mem_singleton.2 ?_⟩⟩ <;>
    exact smallRecord_wf (by decide) (by decide) (by decide)

/-- The batch of the three records. -/
def threeBatch : RecordBatch where
  header :=
    { sizeBytes := 88, baseOffset := 10, type := .raftData, lastOffsetDelta := 2
      firstTimestamp := 100, maxTimestamp := 107, producerId := 4, producerEpoch := 0
      baseSequence := 20, recordCount := 3 }
  data := threeRecords.flatMap Record.appendRecordToBuffer

theorem threeBatch_encodes : threeBatch.Encodes threeRecords :=
  ⟨rfl, rfl, threeRecords_wf⟩

/-- The filter of a segment that keeps the records with the offset deltas `l`. -/
def keepDeltas (l : List Int) : Filter :=
  .segment
    { shouldKeep := fun _ r _ => r.offsetDelta ∈ l
      segmentLastOffset := 99
      isBatchInIdempotentWindow := fun _ => false
      compactionPlaceholderEnabled := true
      unsetTransactionBitEnabled := true }

theorem preserved_of_run_threeBatch :
    ∃ b', b'.header.maxTimestamp = 100 ∧ b'.records = some [smallRecord 1 0 0] ∧
      ∃ rs', threeBatch.Preserved threeRecords b' rs' := by
  have heval : ([keepDeltas [0, 2], .cloud fun r _ => r.offsetDelta = 0].foldlM
      (fun b f => if Fits f b then next b f else none) threeBatch).map
        (fun b => (b.header.maxTimestamp, b.records)) = some (100, some [smallRecord 1 0 0]) := by
    decide
  obtain ⟨b', hrun, hb'⟩ := Run.exists_of_foldlM heval
  obtain ⟨hmax, hrecords⟩ := Prod.mk.inj hb'
  have hrun' : Run FittingStep threeBatch
      [keepDeltas [0, 2], .cloud fun r _ => r.offsetDelta = 0] b' := hrun
  exact ⟨b', hmax, hrecords, preserved_of_run threeBatch_encodes hrun'⟩

/-- Without its first record, the second record of the batch is read at 110 instead of 105, and
    the last one at 112 instead of 107. -/
theorem exists_timestamp_ne :
    threeBatch.Encodes threeRecords ∧
      ∀ f ∈ [keepDeltas [1, 2], .cloud fun r _ => r.offsetDelta ≠ 0],
        ∃ b', next threeBatch f = some b' ∧
          b'.records = some [smallRecord 2 5 1, smallRecord 1 7 2] ∧
          threeBatch.timestampOf (smallRecord 2 5 1) = 105 ∧
          b'.timestampOf (smallRecord 2 5 1) = 110 ∧
          threeBatch.timestampOf (smallRecord 1 7 2) = 107 ∧
          b'.timestampOf (smallRecord 1 7 2) = 112 ∧ b'.header.maxTimestamp = 112 := by
  have heval : ∀ f ∈ [keepDeltas [1, 2], .cloud fun r _ => r.offsetDelta ≠ 0],
      (next threeBatch f).map (fun b => (b.records, b.timestampOf (smallRecord 2 5 1),
        b.timestampOf (smallRecord 1 7 2), b.header.maxTimestamp)) =
      some (some [smallRecord 2 5 1, smallRecord 1 7 2], 110, 112, 112) := by
    decide
  refine ⟨threeBatch_encodes, fun f hf => ?_⟩
  obtain ⟨b', hnext, hb'⟩ := Option.map_eq_some_iff.1 (heval f hf)
  obtain ⟨hrecords, hb'⟩ := Prod.mk.inj hb'
  obtain ⟨hsecond, hb'⟩ := Prod.mk.inj hb'
  obtain ⟨hlast, hmax⟩ := Prod.mk.inj hb'
  exact ⟨b', hnext, hrecords, rfl, hsecond, rfl, hlast, hmax⟩

end Filter

end Redpanda.Compaction
