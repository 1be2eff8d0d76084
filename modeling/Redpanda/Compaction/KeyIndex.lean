import Redpanda.Compaction.Filter
import Redpanda.Lib.Pairwise
import Redpanda.Lib.SpillingMap

/-!
# The index of the keys of a segment

For compaction, a segment has an index of its keys: for each record, its key, the base offset of its
batch and its offset delta. Three bounded maps work on it. The writer of the index
(`buildIndex`) keeps the newest entry of a key in memory and spills what does not fit, with keys cut
at `maxKeySize`. The reducer (`naturalIndexOfEntriesToKeep`) finds the positions in the index of the
newest entry of each key, but may evict entries. The entries at these positions are written to a
new index (`copyFilteredEntries`), by a writer that goes by the base offset only. The offsets in the
new index are those of the records to keep (`generateCompactedList`).

What the maps spill is given by a `Pressure`.

* `IndexEntry.Settled`: keys are not confused when they are cut, and between the records that a
  newest record replaces in its own batch and itself there is no other key.
* `mem_compactedIndex_of_settled`: then the newest entry of each key is kept, whatever is spilled.
* `exists_lost_of_not_settled`: otherwise some newest entry is lost under some pressure.
-/

namespace Redpanda.Compaction

open Lib Model List
open SpillingMap (collapse collapse_sublist mem_collapse mem_output_of_best output
  output_eq_collapse)

/-- `compaction_key`. -/
abbrev CompactionKey := Bytes

/-- `enhance_key`: the key of a record after the type of its batch and the control bit. -/
def enhanceKey (type : RecordBatchType) (isControlBatch : Bool) (key : Bytes) : CompactionKey :=
  UInt8.ofNat (type.ctorIdx + 1) :: (if isControlBatch then 1 else 0) :: key

/-- `spill_key_index::value_type`. -/
structure IndexValue where
  baseOffset : Int
  delta : Int
  deriving DecidableEq

def IndexValue.recordOffset (v : IndexValue) : Int :=
  v.baseOffset + v.delta

/-- `compacted_index::entry`, of type `key`. -/
abbrev IndexEntry := CompactionKey × IndexValue

/-- `spill_key_index::max_key_size`. -/
def maxKeySize : Nat :=
  65535 - 2 * 10

/-- The key of an entry as `append_to_spill_payload` writes it. -/
def cutKey (key : CompactionKey) : CompactionKey :=
  key.take maxKeySize

/-- The entry that `append_to_spill_payload` writes. -/
def IndexEntry.written (e : IndexEntry) : IndexEntry :=
  (cutKey e.1, e.2)

/-- `spill_key_index::index` for a record replaces `v` by `w`. -/
def RecordNewer (v w : IndexValue) : Prop :=
  v.recordOffset < w.recordOffset
  deriving Decidable

/-- `spill_key_index::index` for a key of the index replaces `v` by `w`. -/
def BatchNewer (v w : IndexValue) : Prop :=
  v.baseOffset < w.baseOffset
  deriving Decidable

/-- `compaction_key_reducer` replaces an offset and its natural index `v` by `w`. -/
def OffsetNewer (v w : Int × Nat) : Prop :=
  v.1 < w.1
  deriving Decidable

/-- What the memory limits make the maps spill: for the writer of the index, the reducer and the
    writer of the new index, the keys that have to go at each entry, and the order in which the two
    writers are drained. -/
structure Pressure where
  index : Nat → List CompactionKey
  indexDrain : List CompactionKey
  reducer : Nat → List CompactionKey
  copy : Nat → List CompactionKey
  copyDrain : List CompactionKey

/-- The entries `l` with what each of them makes a map spill. -/
def offers {α : Type*} (spills : Nat → List CompactionKey) (l : List (CompactionKey × α)) :
    List ((CompactionKey × α) × List CompactionKey) :=
  l.zipIdx.map fun x => (x.1, spills x.2)

section

variable (p : Pressure) (l : List IndexEntry)

/-- The index of the records with the entries `l`. -/
def buildIndex : List IndexEntry :=
  (output RecordNewer (offers p.index l) p.indexDrain).map IndexEntry.written

/-- What the reducer looks at: the offset of each entry and its position. -/
def naturalIndices : List (CompactionKey × (Int × Nat)) :=
  l.zipIdx.map fun x => (x.1.1, x.1.2.recordOffset, x.2)

/-- `natural_index_of_entries_to_keep`. -/
def naturalIndexOfEntriesToKeep : List Nat :=
  (output OffsetNewer (offers p.reducer (naturalIndices l)) []).map fun x => x.2.2

/-- The entries of which the bitmap has the position. -/
def filtered (bitmap : List Nat) (l : List IndexEntry) : List IndexEntry :=
  (l.zipIdx.filter fun x => x.2 ∈ bitmap).map Prod.fst

/-- `copy_filtered_entries`. -/
def copyFilteredEntries (bitmap : List Nat) (l : List IndexEntry) : List IndexEntry :=
  (output BatchNewer (offers p.copy (filtered bitmap l)) p.copyDrain).map
    IndexEntry.written

/-- `do_write_clean_compacted_index`. -/
def writeCleanCompactedIndex : List IndexEntry :=
  copyFilteredEntries p (naturalIndexOfEntriesToKeep p l) l

/-- The index of the records with the entries `l` after it was built and cleaned. -/
def compactedIndex : List IndexEntry :=
  writeCleanCompactedIndex p (buildIndex p l)

end

/-- `compacted_offset_list`. -/
structure CompactedOffsetList where
  base : Int
  toKeep : List Nat

namespace CompactedOffsetList

/-- The conversion of a relative offset to `uint32_t`. -/
def relative (base o : Int) : Nat :=
  ((o - base) % 2 ^ 32).toNat

/-- `compacted_offset_list::contains`. -/
def contains (l : CompactedOffsetList) (o : Int) : Bool :=
  relative l.base o ∈ l.toKeep

end CompactedOffsetList

/-- `generate_compacted_list`. -/
def generateCompactedList (base : Int) (l : List IndexEntry) : CompactedOffsetList where
  base := base
  toKeep := l.map fun e => CompactedOffsetList.relative base e.2.recordOffset

namespace IndexEntry

/-- The entry `i` has the highest offset among those of its key. -/
def Newest (l : List IndexEntry) (i : IndexEntry) : Prop :=
  i ∈ l ∧ ∀ x ∈ l, x.1 = i.1 → x.2.recordOffset ≤ i.2.recordOffset
  deriving Decidable

/-- The entries of the records of a segment. -/
def Ordered (l : List IndexEntry) : Prop :=
  l.Pairwise fun x y => x.2.recordOffset < y.2.recordOffset ∧ x.2.baseOffset ≤ y.2.baseOffset

/-- Keys are not confused when they are cut, and between the records that a newest record replaces
    in its own batch and itself there is no other key. -/
structure Settled (l : List IndexEntry) : Prop where
  keys : ∀ x ∈ l, ∀ y ∈ l, cutKey x.1 = cutKey y.1 → x.1 = y.1
  inBatch : ∀ i ∈ l, Newest l i → ∀ x ∈ l, x.1 = i.1 → x.2.baseOffset = i.2.baseOffset →
    ∀ y ∈ l, x.2.recordOffset < y.2.recordOffset → y.2.recordOffset < i.2.recordOffset → y.1 = i.1

end IndexEntry

variable {α : Type*} {p : Pressure} {l : List IndexEntry} {i e : IndexEntry}
  {spills : Nat → List CompactionKey} {ks : List CompactionKey}

theorem map_fst_offers (spills : Nat → List CompactionKey) (l : List (CompactionKey × α)) :
    (offers spills l).map Prod.fst = l := by
  rw [offers, map_map]
  exact zipIdx_map_fst 0 l

theorem mem_of_mem_offers {l : List (CompactionKey × α)}
    {y : (CompactionKey × α) × List CompactionKey} (hy : y ∈ offers spills l) : y.1 ∈ l := by
  rw [← map_fst_offers spills l]
  exact mem_map_of_mem hy

theorem forall_mem_output {β : Type*} {better : β → β → Prop} [DecidableRel better]
    {l : List (CompactionKey × β)}
    {x : CompactionKey × β} (hx : x ∈ output better (offers spills l) ks) : x ∈ l :=
  SpillingMap.forall_mem_output (P := (· ∈ l)) (fun _ hy => mem_of_mem_offers hy) x hx

theorem cutKey_cutKey (key : CompactionKey) : cutKey (cutKey key) = cutKey key :=
  take_take.trans (by rw [Nat.min_self]; rfl)

namespace IndexEntry

theorem Ordered.recordOffset_lt {s t : List IndexEntry} (h : Ordered (s ++ i :: t)) :
    (∀ x ∈ s, x.2.recordOffset < i.2.recordOffset ∧ x.2.baseOffset ≤ i.2.baseOffset) ∧
      ∀ x ∈ t, i.2.recordOffset < x.2.recordOffset ∧ i.2.baseOffset ≤ x.2.baseOffset := by
  obtain ⟨-, ht, hs⟩ := pairwise_append.1 h
  exact ⟨fun x hx => hs x hx i mem_cons_self, (pairwise_cons.1 ht).1⟩

/-- The offsets of the entries are their order. -/
theorem Ordered.baseOffset_le (h : Ordered l) {x y : IndexEntry} (hx : x ∈ l) (hy : y ∈ l)
    (hle : x.2.recordOffset ≤ y.2.recordOffset) : x.2.baseOffset ≤ y.2.baseOffset := by
  rcases eq_or_rel_of_pairwise h hx hy with rfl | hlt | hlt
  · exact le_rfl
  · exact hlt.2
  · exact absurd hle (not_le.2 hlt.1)

theorem Ordered.eq_of_recordOffset_eq (h : Ordered l) {x y : IndexEntry} (hx : x ∈ l)
    (hy : y ∈ l) (heq : x.2.recordOffset = y.2.recordOffset) : x = y := by
  rcases eq_or_rel_of_pairwise h hx hy with heq' | hlt | hlt
  · exact heq'
  · exact absurd heq hlt.1.ne
  · exact absurd heq hlt.1.ne'

theorem exists_newest {P : IndexEntry → Prop} (he : e ∈ l) (hP : P e) :
    ∃ i ∈ l, P i ∧ ∀ x ∈ l, P x → x.2.recordOffset ≤ i.2.recordOffset := by
  classical
  have hmem : ∀ x, x ∈ l.filter P ↔ x ∈ l ∧ P x := fun x => by rw [mem_filter, decide_eq_true_iff]
  rcases hi : (l.filter P).argmax fun x => x.2.recordOffset with _ | i
  · rw [argmax_eq_none] at hi
    have := (hmem e).2 ⟨he, hP⟩
    simp [hi] at this
  · obtain ⟨hil, hiP⟩ := (hmem i).1 (argmax_mem hi)
    refine ⟨i, hil, hiP, fun x hx hxP => ?_⟩
    exact le_of_mem_argmax (f := fun x : IndexEntry => x.2.recordOffset) ((hmem x).2 ⟨hx, hxP⟩) hi

end IndexEntry

/-! ## The newest entry of a key -/

open IndexEntry

theorem mem_output_index (hl : Ordered l) (hi : Newest l i) :
    i ∈ output RecordNewer (offers p.index l) p.indexDrain := by
  obtain ⟨s, t, rfl⟩ := append_of_mem hi.1
  refine mem_output_of_best (map_fst_offers _ _) (fun y hy _ => ?_) fun y hy hkey => ?_
  · exact (hl.recordOffset_lt.1 y hy).1
  · exact not_lt.2 (hi.2 y (mem_append_right s (mem_cons_of_mem i hy)) hkey)

/-- The entry `x` has the key and the batch of `i`. -/
def isInBatchOf (i x : IndexEntry) : Bool :=
  x.1 = i.1 ∧ x.2.baseOffset = i.2.baseOffset

variable {x y : IndexEntry} {bitmap : List Nat}

theorem isInBatchOf_iff : isInBatchOf i x ↔ x.1 = i.1 ∧ x.2.baseOffset = i.2.baseOffset :=
  decide_eq_true_iff

/-- The records of the batch of `i` that it replaces are right before it. -/
theorem ne_baseOffset_of_mem_rdropWhile {s t : List IndexEntry} (hl : Ordered (s ++ i :: t))
    (hsettled : Settled (s ++ i :: t)) (hi : Newest (s ++ i :: t) i)
    (hx : x ∈ s.rdropWhile (isInBatchOf i)) (hkey : x.1 = i.1) :
    x.2.baseOffset ≠ i.2.baseOffset := by
  intro hbase
  -- the last one that is not right before `i`
  have hne := ne_nil_of_mem hx
  have hlast := rdropWhile_last_not _ s hne
  have hpre := rdropWhile_prefix (isInBatchOf i) s
  have hmem := hpre.subset (getLast_mem hne)
  have hxs : x ∈ s := hpre.subset hx
  have hle : x.2.recordOffset ≤ ((s.rdropWhile (isInBatchOf i)).getLast hne).2.recordOffset := by
    have hordered : Ordered (s.rdropWhile (isInBatchOf i)) :=
      hl.sublist (hpre.sublist.trans (sublist_append_left s (i :: t)))
    rw [← dropLast_append_getLast hne] at hx hordered
    rcases mem_concat.1 hx with hx | rfl
    · exact (hordered.recordOffset_lt.1 x hx).1.le
    · exact le_rfl
  have hlt := hl.recordOffset_lt.1 _ hmem
  have hbase_le := hl.baseOffset_le (mem_append_left _ hxs) (mem_append_left _ hmem) hle
  refine hlast (isInBatchOf_iff.2 ⟨?_, le_antisymm hlt.2 (hbase ▸ hbase_le)⟩)
  rcases hle.lt_or_eq with hlt' | heq
  · exact hsettled.inBatch i hi.1 hi x (mem_append_left _ hxs) hkey hbase _
      (mem_append_left _ hmem) hlt' hlt.1
  · rw [← hl.eq_of_recordOffset_eq (mem_append_left _ hxs) (mem_append_left _ hmem) heq]
    exact hkey

/-- Of the records in its batch that it replaces, none is left in the index. -/
theorem eq_of_mem_output_index (hl : Ordered l) (hsettled : Settled l) (hi : Newest l i)
    (hx : x ∈ output RecordNewer (offers p.index l) p.indexDrain) (hkey : x.1 = i.1)
    (hbase : x.2.baseOffset = i.2.baseOffset) : x = i := by
  obtain ⟨s, t, rfl⟩ := append_of_mem hi.1
  have hfar := fun y hy => ne_baseOffset_of_mem_rdropWhile (x := y) hl hsettled hi hy
  have hsplit : s ++ i :: t =
      s.rdropWhile (isInBatchOf i) ++ (s.rtakeWhile (isInBatchOf i) ++ [i] ++ t) := by
    rw [append_assoc, ← append_assoc, rdropWhile_append_rtakeWhile]
    rfl
  have hordered := hl
  rw [hsplit] at hordered
  obtain ⟨-, hblock, hcross⟩ := pairwise_append.1 hordered
  refine SpillingMap.eq_of_mem_output (R := fun v => v.baseOffset = i.2.baseOffset)
    ((map_fst_offers _ _).trans hsplit) (fun y hy hkey => ⟨hfar y hy hkey, fun z hz => ?_⟩)
    (fun y hy => ?_) ?_ (fun y hy hkey => ?_) x hx hkey hbase
  · exact (hcross y hy z (mem_append_left t hz)).1
  · exact (isInBatchOf_iff.1 (mem_rtakeWhile_imp hy)).1
  · exact (pairwise_append.1 hblock).1.imp fun h => h.1
  · have hle := hi.2 y (mem_append_right s (mem_cons_of_mem i hy)) hkey
    exact absurd hle (not_le.2 (hl.recordOffset_lt.2 y hy).1)

/-- An entry that is the newest of its key in the index, by its offset and by its base offset, and
    the only one with these. -/
structure Best (l : List IndexEntry) (e : IndexEntry) : Prop where
  mem : e ∈ l
  cut : cutKey e.1 = e.1
  recordOffset : ∀ x ∈ l, x.1 = e.1 → x ≠ e → x.2.recordOffset < e.2.recordOffset
  baseOffset : ∀ x ∈ l, x.1 = e.1 → x ≠ e → x.2.baseOffset < e.2.baseOffset

theorem best_buildIndex (hl : Ordered l) (hsettled : Settled l) (hi : Newest l i) :
    Best (buildIndex p l) i.written := by
  -- the entries of this key in the index are those of records of the key
  have hmem : ∀ x ∈ buildIndex p l, x.1 = i.written.1 → x ≠ i.written →
      ∃ y ∈ l, x = written y ∧ y.2.recordOffset < i.2.recordOffset ∧
        y.2.baseOffset ≠ i.2.baseOffset := by
    intro x hx hkey hne
    obtain ⟨y, hy, rfl⟩ := mem_map.1 hx
    have hyl := forall_mem_output hy
    have hykey := hsettled.keys y hyl i hi.1 hkey
    have hyi : y ≠ i := fun h => hne (h ▸ rfl)
    refine ⟨y, hyl, rfl, lt_of_le_of_ne (hi.2 y hyl hykey) fun h => hyi ?_, fun h => hyi ?_⟩
    · exact hl.eq_of_recordOffset_eq hyl hi.1 h
    · exact eq_of_mem_output_index hl hsettled hi hy hykey h
  refine ⟨mem_map_of_mem (mem_output_index hl hi), cutKey_cutKey i.1, ?_, ?_⟩
  · intro x hx hkey hne
    obtain ⟨y, -, rfl, hlt, -⟩ := hmem x hx hkey hne
    exact hlt
  · intro x hx hkey hne
    obtain ⟨y, hyl, rfl, hlt, hbase⟩ := hmem x hx hkey hne
    have hle : y.2.baseOffset ≤ i.2.baseOffset := hl.baseOffset_le hyl hi.1 hlt.le
    exact lt_of_le_of_ne hle hbase

/-! ## Cleaning the index -/

theorem naturalIndices_append_cons (s t : List IndexEntry) :
    naturalIndices (s ++ e :: t) =
      naturalIndices s ++ (e.1, e.2.recordOffset, s.length) ::
        (t.zipIdx (s.length + 1)).map fun x => (x.1.1, x.1.2.recordOffset, x.2) := by
  rw [naturalIndices, zipIdx_append, map_append, zipIdx_cons, map_cons, Nat.zero_add]
  rfl

theorem filtered_append_cons (s t : List IndexEntry) (h : s.length ∈ bitmap) :
    ∃ s' t', filtered bitmap (s ++ e :: t) = s' ++ e :: t' ∧ s' ⊆ s ∧ t' ⊆ t := by
  have hsub : ∀ (u : List IndexEntry) (n : Nat),
      ((u.zipIdx n).filter fun x => x.2 ∈ bitmap).map Prod.fst ⊆ u := by
    intro u n x hx
    obtain ⟨y, hy, rfl⟩ := mem_map.1 hx
    exact fst_mem_of_mem_zipIdx (mem_filter.1 hy).1
  refine ⟨_, _, ?_, hsub s 0, hsub t (s.length + 1)⟩
  rw [filtered, zipIdx_append, zipIdx_cons, filter_append, filter_cons_of_pos, map_append, map_cons,
    Nat.zero_add]
  exact decide_eq_true (by rwa [Nat.zero_add])

/-- The reducer keeps the first place of the newest entry of a key. -/
theorem exists_mem_output_reducer (he : e ∈ l)
    (hnewest : ∀ x ∈ l, x.1 = e.1 → x ≠ e → x.2.recordOffset < e.2.recordOffset) :
    ∃ s t, l = s ++ e :: t ∧ e ∉ s ∧ (e.1, e.2.recordOffset, s.length) ∈
      output OffsetNewer (offers p.reducer (naturalIndices l)) [] := by
  obtain ⟨s, t, rfl, hs⟩ := eq_append_cons_of_mem he
  refine ⟨s, t, rfl, hs, mem_output_of_best
    ((map_fst_offers _ _).trans (naturalIndices_append_cons s t)) ?_ ?_⟩
  · intro y hy hkey
    obtain ⟨x, hx, rfl⟩ := mem_map.1 hy
    have hxs := fst_mem_of_mem_zipIdx hx
    exact hnewest x.1 (mem_append_left _ hxs) hkey fun heq => hs (heq ▸ hxs)
  · intro y hy hkey
    obtain ⟨x, hx, rfl⟩ := mem_map.1 hy
    by_cases hxe : x.1 = e
    · exact not_lt.2 (by rw [hxe])
    · have hxt := mem_append_right s (mem_cons_of_mem e (fst_mem_of_mem_zipIdx hx))
      exact not_lt.2 (hnewest x.1 hxt hkey hxe).le

/-- The best entry of a key survives, whatever is spilled. -/
theorem Best.mem_writeCleanCompactedIndex (h : Best l e) : e ∈ writeCleanCompactedIndex p l := by
  obtain ⟨s, t, rfl, hs, hreducer⟩ := exists_mem_output_reducer (p := p) h.mem h.recordOffset
  have hbitmap : s.length ∈ naturalIndexOfEntriesToKeep p (s ++ e :: t) :=
    mem_map.2 ⟨_, hreducer, rfl⟩
  obtain ⟨s', t', hfiltered, hs', ht'⟩ := filtered_append_cons (e := e) s t hbitmap
  have hmem : e ∈ output BatchNewer
      (offers p.copy (filtered (naturalIndexOfEntriesToKeep p (s ++ e :: t)) (s ++ e :: t)))
      p.copyDrain := by
    refine mem_output_of_best ((map_fst_offers _ _).trans hfiltered) ?_ ?_
    · intro y hy hkey
      exact h.baseOffset y (mem_append_left _ (hs' hy)) hkey fun heq => hs (heq ▸ hs' hy)
    · intro y hy hkey
      by_cases hye : y = e
      · exact not_lt.2 (by rw [hye])
      · have hyt := mem_append_right s (mem_cons_of_mem e (ht' hy))
        exact not_lt.2 (h.baseOffset y hyt hkey hye).le
  exact mem_map.2 ⟨e, hmem, Prod.ext h.cut rfl⟩

/-- In a settled segment, the newest entry of each key is kept, whatever is spilled. -/
theorem mem_compactedIndex_of_settled (hl : Ordered l) (hsettled : Settled l)
    (hi : Newest l i) : i.written ∈ compactedIndex p l :=
  (best_buildIndex hl hsettled hi).mem_writeCleanCompactedIndex

theorem mem_of_mem_filtered (he : e ∈ filtered bitmap l) : e ∈ l := by
  obtain ⟨x, hx, rfl⟩ := mem_map.1 he
  exact fst_mem_of_mem_zipIdx (mem_filter.1 hx).1

theorem exists_of_mem_buildIndex (he : e ∈ buildIndex p l) : ∃ x ∈ l, e = x.written := by
  obtain ⟨x, hx, rfl⟩ := mem_map.1 he
  exact ⟨x, forall_mem_output hx, rfl⟩

theorem written_eq_of_mem_buildIndex (he : e ∈ buildIndex p l) : e.written = e := by
  obtain ⟨x, -, rfl⟩ := exists_of_mem_buildIndex he
  exact Prod.ext (cutKey_cutKey x.1) rfl

/-- The entries of the new index are those that the reducer keeps of the index. -/
theorem mem_output_of_mem_compactedIndex (he : e ∈ compactedIndex p l) :
    e ∈ output BatchNewer (offers p.copy
      (filtered (naturalIndexOfEntriesToKeep p (buildIndex p l)) (buildIndex p l))) p.copyDrain := by
  obtain ⟨x, hx, rfl⟩ := mem_map.1 he
  rwa [written_eq_of_mem_buildIndex (mem_of_mem_filtered (forall_mem_output hx))]

theorem exists_of_mem_compactedIndex (he : e ∈ compactedIndex p l) : ∃ x ∈ l, e = x.written :=
  exists_of_mem_buildIndex
    (mem_of_mem_filtered (forall_mem_output (mem_output_of_mem_compactedIndex he)))

/-! ## Losing a newest entry -/

/-- No entry of the index has the offset of `i`. -/
def Lost (p : Pressure) (l : List IndexEntry) (i : IndexEntry) : Prop :=
  ∀ e ∈ compactedIndex p l, e.2.recordOffset ≠ i.2.recordOffset

/-- An entry at a position that the reducer keeps. -/
theorem exists_mem_output_of_mem_filtered (he : e ∈ filtered (naturalIndexOfEntriesToKeep p l) l) :
    ∃ n, (e.1, e.2.recordOffset, n) ∈
      output OffsetNewer (offers p.reducer (naturalIndices l)) [] := by
  obtain ⟨x, hx, rfl⟩ := mem_map.1 he
  obtain ⟨hx, hbitmap⟩ := mem_filter.1 hx
  obtain ⟨y, hy, hyx⟩ := mem_map.1 (of_decide_eq_true hbitmap)
  obtain ⟨z, hz, rfl⟩ := mem_map.1 (forall_mem_output hy)
  have hzx : z.2 = x.2 := hyx
  have hzfst : z.1 = x.1 := by
    have hz' := (mk_mem_zipIdx_iff_getElem? (x := z.1) (i := z.2)).1 hz
    have hx' := (mk_mem_zipIdx_iff_getElem? (x := x.1) (i := x.2)).1 hx
    rw [hzx, hx'] at hz'
    exact (Option.some.inj hz').symm
  exact ⟨z.2, hzfst ▸ hy⟩

/-- Nothing is spilled. -/
def Pressure.none : Pressure where
  index _ := []
  indexDrain := []
  reducer _ := []
  copy _ := []
  copyDrain := []

theorem offers_snd
    (h : ∀ n, spills n = ks) {l : List (CompactionKey × α)} : ∀ x ∈ offers spills l, x.2 = ks := by
  intro x hx
  obtain ⟨y, -, rfl⟩ := mem_map.1 hx
  exact h y.2

/-- Of two keys that are the same once they are cut, one loses its newest record. -/
theorem exists_lost_of_cutKey_eq (hl : Ordered l) (hx : x ∈ l) (hy : y ∈ l)
    (hcut : cutKey x.1 = cutKey y.1) (hne : x.1 ≠ y.1) : ∃ i, Newest l i ∧ Lost .none l i := by
  -- the newest record of all keys with this cut, and one of another such key
  obtain ⟨j, hj, hjcut, hjnewest⟩ :=
    exists_newest (P := fun z => cutKey z.1 = cutKey x.1) hx rfl
  have hother : ∃ z ∈ l, cutKey z.1 = cutKey x.1 ∧ z.1 ≠ j.1 := by
    by_cases hxj : x.1 = j.1
    · exact ⟨y, hy, hcut.symm, fun h => hne (hxj.trans h.symm)⟩
    · exact ⟨x, hx, rfl, hxj⟩
  obtain ⟨z, hz, hzcut, hzj⟩ := hother
  obtain ⟨i, hi, hiz, hinewest⟩ := exists_newest (P := fun w => w.1 = z.1) hz rfl
  have hjn : Newest l j := ⟨hj, fun w hw hkey => hjnewest w hw (hkey ▸ hjcut)⟩
  refine ⟨i, ⟨hi, fun w hw hkey => hinewest w hw (hkey.trans hiz)⟩, fun e he heq => hzj ?_⟩
  obtain ⟨w, hw, rfl⟩ := exists_of_mem_compactedIndex he
  obtain rfl := hl.eq_of_recordOffset_eq hw hi heq
  obtain ⟨n, hreducer⟩ := exists_mem_output_of_mem_filtered
    (forall_mem_output (mem_output_of_mem_compactedIndex he))
  -- the reducer has kept `j` for this key
  have hjmem : j.written ∈ buildIndex .none l := mem_map_of_mem (mem_output_index hl hjn)
  have hjlast : ∀ v ∈ buildIndex .none l, v.1 = j.written.1 → v ≠ j.written →
      v.2.recordOffset < j.written.2.recordOffset := by
    intro v hv hkey hvj
    obtain ⟨u, hu, rfl⟩ := exists_of_mem_buildIndex hv
    refine lt_of_le_of_ne (hjnewest u hu (hkey.trans hjcut)) fun heq => hvj ?_
    rw [hl.eq_of_recordOffset_eq hu hj heq]
  obtain ⟨s, t, -, -, hjreducer⟩ := exists_mem_output_reducer (p := .none) hjmem hjlast
  have hkey : cutKey w.1 = cutKey j.1 := by rw [hiz, hzcut, hjcut]
  have hsame := SpillingMap.eq_of_not_spilled (offers_snd fun _ => rfl) hreducer hjreducer hkey
  have hoffset : w.2.recordOffset = j.2.recordOffset := (Prod.mk.inj (Prod.mk.inj hsame).2).1
  rw [← hiz, hl.eq_of_recordOffset_eq hw hj hoffset]

/-- Everything is spilled at each chance, but not by the writer of the new index. -/
def Pressure.all (l : List IndexEntry) : Pressure where
  index _ := l.map Prod.fst
  indexDrain := []
  reducer _ := l.map fun x => cutKey x.1
  copy _ := []
  copyDrain := []

theorem Pressure.copy_all (l : List IndexEntry) (n : Nat) : (Pressure.all l).copy n = [] :=
  rfl

section

variable (hl : Ordered l)

include hl

theorem buildIndex_all : buildIndex (.all l) l = (collapse l).map written := by
  rw [buildIndex, Pressure.all, output_eq_collapse, map_fst_offers]
  · intro x hx y hy
    rw [offers_snd (fun _ => rfl) x hx]
    exact mem_map_of_mem (mem_of_mem_offers hy)
  · rw [map_fst_offers]
    exact hl.imp fun h _ => h.1

/-- The last record of the key of `i` before `y` is followed by one of another key. -/
theorem exists_mem_collapse (hx : x ∈ l) (hy : y ∈ l)
    (hlt : x.2.recordOffset < y.2.recordOffset) (hne : y.1 ≠ x.1) :
    ∃ z ∈ collapse l, z.1 = x.1 ∧ x.2.recordOffset ≤ z.2.recordOffset ∧
      z.2.recordOffset < y.2.recordOffset := by
  obtain ⟨z, hz, ⟨hkey, hzy⟩, hlast⟩ := exists_newest
    (P := fun z => z.1 = x.1 ∧ z.2.recordOffset < y.2.recordOffset) hx ⟨rfl, hlt⟩
  obtain ⟨s, t, rfl⟩ := append_of_mem hz
  refine ⟨z, mem_collapse fun w hw hwz => ?_, hkey, hlast x hx ⟨rfl, hlt⟩, hzy⟩
  -- `w` follows `z`, so it is at most `y`
  rcases t with _ | ⟨w', t⟩
  · exact nomatch hw
  obtain rfl := Option.some.inj hw
  have hzw := (hl.recordOffset_lt.2 w' mem_cons_self).1
  have hmem : w' ∈ s ++ z :: w' :: t := mem_append_right s (mem_cons_of_mem z mem_cons_self)
  have hwy : w'.2.recordOffset ≤ y.2.recordOffset := by
    rcases mem_append.1 hy with hys | hy
    · exact absurd hzy (not_lt.2 (hl.recordOffset_lt.1 y hys).1.le)
    rcases mem_cons.1 hy with rfl | hy
    · exact absurd hzy (lt_irrefl _)
    rcases mem_cons.1 hy with rfl | hy
    · exact le_rfl
    · have hl' : Ordered ((s ++ [z]) ++ w' :: t) := by rwa [append_assoc]
      exact (hl'.recordOffset_lt.2 y hy).1.le
  rcases hwy.lt_or_eq with hlt' | heq
  · exact not_le.2 hzw (hlast w' hmem ⟨hwz.trans hkey, hlt'⟩)
  · rw [hl.eq_of_recordOffset_eq hmem hy heq] at hwz
    exact hne (hwz.trans hkey)

theorem output_reducer_all :
    output OffsetNewer
        (offers (Pressure.all l).reducer (naturalIndices (buildIndex (.all l) l))) [] =
      collapse (naturalIndices (buildIndex (.all l) l)) := by
  rw [output_eq_collapse, map_fst_offers]
  · intro x hx y hy
    obtain ⟨z, hz, hzy⟩ := mem_map.1 (mem_of_mem_offers hy)
    obtain ⟨w, hw, hwz⟩ := exists_of_mem_buildIndex (fst_mem_of_mem_zipIdx hz)
    rw [offers_snd (fun _ => rfl) x hx, ← hzy, hwz]
    exact mem_map.2 ⟨w, hw, rfl⟩
  · rw [map_fst_offers, naturalIndices, pairwise_map]
    have hordered : Ordered (buildIndex (.all l) l) := by
      rw [buildIndex_all hl, Ordered, pairwise_map]
      exact hl.sublist (collapse_sublist l)
    have hzip : ((buildIndex (.all l) l).zipIdx.map Prod.fst).Pairwise
        fun x y => x.2.recordOffset < y.2.recordOffset := by
      rw [zipIdx_map_fst]
      exact hordered.imp fun h => h.1
    refine (pairwise_map.1 hzip).imp fun {a b} h _ => ?_
    exact h

section

variable (hkeys : ∀ x ∈ l, ∀ y ∈ l, cutKey x.1 = cutKey y.1 → x.1 = y.1)

include hkeys

/-- The reducer keeps the entries of the index, each of which is followed by one of another key. -/
theorem mem_naturalIndex_all {s t : List IndexEntry} (hst : collapse l = s ++ e :: t) :
    s.length ∈ naturalIndexOfEntriesToKeep (.all l) (buildIndex (.all l) l) := by
  have hsub := (collapse_sublist l).subset
  have hchain := SpillingMap.isChain_collapse l
  rw [hst] at hsub hchain
  have hmem : (cutKey e.1, e.2.recordOffset, (s.map written).length) ∈
      collapse (naturalIndices (buildIndex (.all l) l)) := by
    rw [buildIndex_all hl, hst, map_append, map_cons, naturalIndices_append_cons]
    refine mem_collapse fun y hy hkey => ?_
    rcases t with _ | ⟨z, t⟩
    · exact nomatch hy
    cases hy
    have hne := (isChain_append_cons_cons.1 hchain).2.1
    refine hne (hkeys e (hsub ?_) z (hsub ?_) hkey.symm)
    · exact mem_append_right s mem_cons_self
    · exact mem_append_right s (mem_cons_of_mem e mem_cons_self)
  rw [length_map] at hmem
  rw [naturalIndexOfEntriesToKeep, output_reducer_all hl]
  exact mem_map.2 ⟨_, hmem, rfl⟩

/-- If another key comes between two records of a key in a batch, the first one may win. -/
theorem lost_of_between (hi : Newest l i) (hx : x ∈ l)
    (hy : y ∈ l) (hxi : x.1 = i.1) (hbase : x.2.baseOffset = i.2.baseOffset)
    (hxy : x.2.recordOffset < y.2.recordOffset) (hyi : y.2.recordOffset < i.2.recordOffset)
    (hne : y.1 ≠ i.1) : Lost (.all l) l i := by
  obtain ⟨z, hz, hzx, hxz, hzy⟩ := exists_mem_collapse hl hx hy hxy (hxi ▸ hne)
  have hsub := collapse_sublist l
  have hzi : z.1 = i.1 := hzx.trans hxi
  have hzbase : z.2.baseOffset = i.2.baseOffset :=
    le_antisymm (hl.baseOffset_le (hsub.subset hz) hi.1 (hzy.trans hyi).le)
      (hbase ▸ hl.baseOffset_le hx (hsub.subset hz) hxz)
  obtain ⟨s, t, hst⟩ := append_of_mem hz
  have hbitmap := mem_naturalIndex_all hl hkeys hst
  have hlength : (s.map written).length = s.length := length_map written
  rw [← hlength] at hbitmap
  obtain ⟨s', t', hfiltered, hs', ht'⟩ :=
    filtered_append_cons (e := written z) (s.map written) (t.map written) hbitmap
  rw [← map_cons, ← map_append, ← hst, ← buildIndex_all hl] at hfiltered
  have hoffers := (map_fst_offers (Pressure.all l).copy _).trans hfiltered
  have hnil := offers_snd (l := filtered (naturalIndexOfEntriesToKeep (.all l)
    (buildIndex (.all l) l)) (buildIndex (.all l) l)) fun n => Pressure.copy_all l n
  -- the entries of this key are those of its records
  have hrecord : ∀ w ∈ collapse l, cutKey w.1 = cutKey z.1 →
      w.2.baseOffset ≤ i.2.baseOffset := by
    intro w hw hkey
    have hwl := hsub.subset hw
    have hwi := (hkeys w hwl z (hsub.subset hz) hkey).trans hzi
    exact hl.baseOffset_le hwl hi.1 (hi.2 w hwl hwi)
  have hordered : Ordered (s ++ z :: t) := hst ▸ hl.sublist hsub
  intro e he heq
  obtain ⟨w, hw, rfl⟩ := exists_of_mem_compactedIndex he
  obtain rfl := hl.eq_of_recordOffset_eq hw hi.1 heq
  have hkey : (written w).1 = (written z).1 := congrArg cutKey hzi.symm
  have hw := mem_output_of_mem_compactedIndex he
  refine absurd heq (SpillingMap.forall_mem_output_of_not_spilled
    (P := fun v => w.2.baseOffset ≤ v.baseOffset ∧ v.recordOffset ≠ w.2.recordOffset)
    hoffers hnil ?_ ?_ ?_ (written w) hw hkey).2
  · exact ⟨hzbase.ge, (hzy.trans hyi).ne⟩
  · intro v hv hkey hnot
    obtain ⟨u, hu, rfl⟩ := mem_map.1 (hs' hv)
    refine ⟨hzbase ▸ not_lt.1 hnot, ?_⟩
    exact ((hordered.recordOffset_lt.1 u hu).1.trans (hzy.trans hyi)).ne
  · intro v hv hkey u hu hlt
    obtain ⟨u', hu', rfl⟩ := mem_map.1 (ht' hv)
    have hle := hrecord u' (hst ▸ mem_append_right s (mem_cons_of_mem z hu')) hkey
    exact not_lt.2 (hle.trans hu.1) hlt

end

/-- In a segment that is not settled, some newest entry is lost under some pressure. -/
theorem exists_lost_of_not_settled (hsettled : ¬ Settled l) : ∃ p i, Newest l i ∧ Lost p l i := by
  by_cases hkeys : ∀ x ∈ l, ∀ y ∈ l, cutKey x.1 = cutKey y.1 → x.1 = y.1
  · by_contra hlost
    refine hsettled ⟨hkeys, fun i _ hi x hx hxi hbase y hy hxy hyi => ?_⟩
    by_contra hne
    exact hlost ⟨.all l, i, hi, lost_of_between hl hkeys hi hx hy hxi hbase hxy hyi hne⟩
  · push Not at hkeys
    obtain ⟨x, hx, y, hy, hcut, hne⟩ := hkeys
    obtain ⟨i, hi, hlost⟩ := exists_lost_of_cutKey_eq hl hx hy hcut hne
    exact ⟨.none, i, hi, hlost⟩

end

end Redpanda.Compaction
