import Redpanda.Lib.Pairwise
import Redpanda.Storage.TimeQuery

/-!
# The answers of time queries

The index of a segment never makes a query skip a batch it should have read (`Indexed`): an entry
that is not the first one is that of a batch whose timestamps are too small, and if the timestamps
are monotonic, so are those of all batches before it. So a query reads the first data batch of its
segment that overlaps the range and has a large enough maximum timestamp. But the timestamps of the
segment and the batch that it looks at may come from records out of the range.

* `Log.Searchable`: the batch that is read has a record that the query looks for, or there is no
  batch to read and the log has no such record.
* `Log.answers_timequery_iff`: the answer is right exactly if this is so.
* `Log.exists_missed_record`: otherwise it may be wrong. A query whose range begins inside of a
  segment finds nothing if the large timestamps of this segment are before the range, although there
  are others in the next segment.
-/

namespace Redpanda.TimeQuery

open Compaction Model Lib List

variable {cfg : IndexConfig} {bs : List Batch} {b : Batch}

/-! ## Timestamps -/

/-- The largest timestamp that a batch has in the index. -/
def Batch.indexTimestamp (b : Batch) : Int :=
  max b.header.firstTimestamp b.header.maxTimestamp

theorem lt_of_offsetTimeIndex_lt {withOffset : Bool} {ts ts' : Int}
    (h : offsetTimeIndex withOffset ts < offsetTimeIndex withOffset ts') : ts < ts' := by
  by_contra hle
  rw [Int.not_lt] at hle
  refine absurd h (Nat.not_lt.2 ?_)
  rw [offsetTimeIndex, offsetTimeIndex]
  split <;> exact Int.toNat_le_toNat (by gcongr)

/-! ## The index -/

variable {x : IndexState} {base : Int}

namespace IndexState

variable {acc step pos : Nat} {h : RecordBatchHeader} {u : Bool}

/-- The entry is that of a batch. If it is not the first one, it has the timestamp of the batch. -/
def EntryOf (x : IndexState) (bs : List Batch) (i : Nat) (e : IndexEntry) : Prop :=
  ∃ pre b post, bs = pre ++ b :: post ∧ x.entryOffset e = b.baseOffset ∧ e.filepos = fileSize pre ∧
    (i = 0 → pre = []) ∧
      (i ≠ 0 → e.relativeTime = offsetTimeIndex x.withOffset (b.indexTimestamp - x.baseTimestamp))

/-- The entry that a batch gets. -/
def newEntry (x : IndexState) (pos : Nat) (h : RecordBatchHeader) (u : Bool) : IndexEntry :=
  ⟨(h.baseOffset - x.baseOffset).toNat,
    offsetTimeIndex x.withOffset (lastTimestamp h u - x.baseTimestamp), pos⟩

/-- The first batch always gets an entry. -/
theorem maybeIndex_of_nil (hnil : x.entries = []) (hnot : x.nonDataTimestamps = false)
    (hle : h.baseOffset - x.baseOffset ≤ 2 ^ 32 - 1) :
    (x.maybeIndex acc step pos h u).1 =
      { x with
        baseTimestamp := h.firstTimestamp
        maxOffset := h.baseOffset + h.lastOffsetDelta
        maxTimestamp :=
          if u then max h.firstTimestamp (lastTimestamp h u) else h.firstTimestamp
        entries := [newEntry { x with baseTimestamp := h.firstTimestamp } pos h u]
        nonDataTimestamps := !u } := by
  have hreset : x.resetTimestamps h u = x := by
    rw [resetTimestamps, if_neg]
    rw [hnot]
    exact fun hand => Bool.false_ne_true hand.2
  rw [maybeIndex, hreset, initTimestamps, if_pos hnil]
  dsimp only
  rw [if_pos ⟨.inr (decide_eq_true hnil), hle⟩, hnil, hnot]
  simp [newEntry]

/-- A later batch gets an entry if it has user data and is far enough from the last one that has. -/
theorem exists_maybeIndex_of_ne_nil (hne : x.entries ≠ []) (acc step pos : Nat)
    (h : RecordBatchHeader) (u : Bool) :
    ∃ l, (l = [] ∨ u = true ∧ l = [newEntry (x.resetTimestamps h u) pos h u]) ∧
      (x.maybeIndex acc step pos h u).1 =
        { x.resetTimestamps h u with
          maxOffset := h.baseOffset + h.lastOffsetDelta
          maxTimestamp :=
            if u then max (x.resetTimestamps h u).maxTimestamp (lastTimestamp h u)
            else (x.resetTimestamps h u).maxTimestamp
          entries := (x.resetTimestamps h u).entries ++ l } := by
  have hne' : (x.resetTimestamps h u).entries ≠ [] := by
    rw [resetTimestamps]
    split
    · dsimp only
      unfold tryResetRelativeTimeIndex
      split
      · exact cons_ne_nil _ _
      · exact hne
    · exact hne
  rw [maybeIndex, initTimestamps, if_neg hne']
  generalize x.resetTimestamps h u = y at hne' ⊢
  dsimp only
  rw [decide_eq_false hne', Bool.false_and, Bool.or_false]
  split
  · rename_i hcond
    have hu : u = true := by
      rcases hcond.1 with hstep | hempty
      · exact hstep.2
      · exact absurd hempty Bool.false_ne_true
    exact ⟨_, .inr ⟨hu, rfl⟩, rfl⟩
  · exact ⟨[], .inl rfl, by rw [append_nil]⟩

/-- Entries stay those of their batches. -/
theorem EntryOf.append {i : Nat} {e : IndexEntry} (he : x.EntryOf bs i e) (b : Batch) :
    x.EntryOf (bs ++ [b]) i e := by
  obtain ⟨pre, c, post, rfl, hentry⟩ := he
  exact ⟨pre, c, post ++ [b], by rw [append_assoc, cons_append], hentry⟩

theorem entryOf_newEntry (bs : List Batch) (hx : x.baseOffset ≤ b.baseOffset) {i : Nat}
    (hi : i = 0 → bs = []) (hu : i ≠ 0 → u = true) :
    x.EntryOf (bs ++ [b]) i (newEntry x (fileSize bs) b.header u) := by
  refine ⟨bs, b, [], rfl, ?_, rfl, hi, fun hne => ?_⟩
  · have hnonneg : 0 ≤ b.baseOffset - x.baseOffset := Int.sub_nonneg_of_le hx
    rw [entryOffset, newEntry]
    change ((b.baseOffset - x.baseOffset).toNat : Int) + x.baseOffset = b.baseOffset
    rw [Int.toNat_of_nonneg hnonneg, Int.sub_add_cancel]
  · rw [newEntry, lastTimestamp, if_pos (hu hne), Batch.indexTimestamp]

/-- What the index of a segment says about its batches. -/
structure Describes (cfg : IndexConfig) (base : Int) (x : IndexState) (bs : List Batch) : Prop where
  baseOffset : x.baseOffset = base
  entries_eq_nil : x.entries = [] ↔ bs = []
  entry : ∀ i e, x.entries[i]? = some e → x.EntryOf bs i e
  nonData : x.nonDataTimestamps = true ↔ bs ≠ [] ∧ ∀ b ∈ bs, cfg.userData b.header = false
  entries_of_nonData : x.nonDataTimestamps = true → ∃ e, x.entries = [e]
  maxTimestamp : (∃ b ∈ bs, cfg.userData b.header = true) → ∀ t,
    t ≤ x.maxTimestamp ↔ ∃ b ∈ bs, cfg.userData b.header = true ∧ t ≤ b.indexTimestamp

namespace Describes

theorem nonData_nil (hx : x.Describes cfg base []) : x.nonDataTimestamps = false := by
  rw [← Bool.not_eq_true, hx.nonData]
  exact fun hand => hand.1 rfl

theorem exists_userData (hx : x.Describes cfg base bs) (hne : bs ≠ []) :
    (∃ b ∈ bs, cfg.userData b.header = true) ↔ ¬ x.nonDataTimestamps = true := by
  rw [hx.nonData]
  simp [hne]

/-- The first batch of a segment. -/
theorem maybeIndex_nil (hx : x.Describes cfg base []) (hbase : base ≤ b.baseOffset)
    (hhead : b.baseOffset - base ≤ 2 ^ 32 - 1) :
    (x.maybeIndex acc step 0 b.header (cfg.userData b.header)).1.Describes cfg base [b] := by
  rw [maybeIndex_of_nil (hx.entries_eq_nil.2 rfl) hx.nonData_nil (hx.baseOffset ▸ hhead)]
  refine ⟨hx.baseOffset, ?_, ?_, ?_, ?_, ?_⟩
  · exact iff_of_false (cons_ne_nil _ _) (cons_ne_nil _ _)
  · intro i e he
    obtain ⟨rfl, rfl⟩ : i = 0 ∧ _ = e := by simpa [getElem?_singleton] using he
    exact entryOf_newEntry [] (x := { x with baseTimestamp := b.header.firstTimestamp })
      (hx.baseOffset.trans_le hbase) (fun _ => rfl) fun hne => absurd rfl hne
  · simp
  · exact fun _ => ⟨_, rfl⟩
  · rintro ⟨c, hc, hu⟩ t
    rw [mem_singleton.1 hc] at hu
    rw [hu, if_pos rfl, lastTimestamp, if_pos rfl, max_eq_right (le_max_left _ _)]
    simp [hu, Batch.indexTimestamp]

/-- The timestamps of a batch without user data are overridden. -/
theorem resetTimestamps (hx : x.Describes cfg base bs) (hu : cfg.userData b.header = true) :
    (∀ i e, (x.resetTimestamps b.header true).entries[i]? = some e →
      (x.resetTimestamps b.header true).EntryOf bs i e) ∧
    (x.resetTimestamps b.header true).baseOffset = base ∧
    (x.resetTimestamps b.header true).nonDataTimestamps = false ∧
    ((x.resetTimestamps b.header true).entries = [] ↔ x.entries = []) ∧
    (bs ≠ [] → ∀ t, t ≤ max (x.resetTimestamps b.header true).maxTimestamp b.indexTimestamp ↔
      ∃ c ∈ bs ++ [b], cfg.userData c.header = true ∧ t ≤ c.indexTimestamp) := by
  have hconcat : ∀ t, (∃ c ∈ bs ++ [b], cfg.userData c.header = true ∧ t ≤ c.indexTimestamp) ↔
      (∃ c ∈ bs, cfg.userData c.header = true ∧ t ≤ c.indexTimestamp) ∨ t ≤ b.indexTimestamp := by
    intro t
    simp only [mem_append, or_and_right, exists_or, mem_singleton, exists_eq_left, hu, true_and]
  rw [IndexState.resetTimestamps]
  -- as long as there was no user data, the only entry is that of the first batch
  by_cases hnot : x.nonDataTimestamps = true
  · rw [if_pos ⟨rfl, hnot⟩]
    obtain ⟨e, he⟩ := hx.entries_of_nonData hnot
    obtain ⟨pre, c, post, hbs, hoffset, hpos, hzero, -⟩ := hx.entry 0 e (by rw [he]; rfl)
    refine ⟨?_, hx.baseOffset, rfl, ?_, fun _ t => ?_⟩
    · intro i e' he'
      rw [he] at he'
      cases i with
      | zero =>
        cases he'
        exact ⟨pre, c, post, hbs, hoffset, hpos, hzero, fun hne => absurd rfl hne⟩
      | succ i => exact nomatch he'
    · rw [he]
      exact iff_of_false (cons_ne_nil _ _) (cons_ne_nil _ _)
    · have hnone : ¬ ∃ c ∈ bs, cfg.userData c.header = true ∧ t ≤ c.indexTimestamp := by
        rintro ⟨c, hc, hcu, -⟩
        exact (hx.exists_userData (ne_nil_of_mem hc)).1 ⟨c, hc, hcu⟩ hnot
      have hmax : max b.header.firstTimestamp b.indexTimestamp = b.indexTimestamp :=
        max_eq_right (le_max_left _ _)
      dsimp only
      rw [hconcat, or_iff_right hnone, hmax]
  · rw [if_neg fun hand => hnot hand.2]
    refine ⟨hx.entry, hx.baseOffset, Bool.eq_false_iff.2 hnot, Iff.rfl, fun hne t => ?_⟩
    rw [hconcat, le_max_iff, hx.maxTimestamp ((hx.exists_userData hne).2 hnot)]

/-- A batch without user data changes nothing. -/
theorem resetTimestamps_false : x.resetTimestamps h false = x :=
  if_neg fun hand => Bool.false_ne_true hand.1

/-- A later batch. -/
theorem maybeIndex_concat (hx : x.Describes cfg base bs) (hne : bs ≠ [])
    (hbase : base ≤ b.baseOffset) :
    (x.maybeIndex acc step (fileSize bs) b.header (cfg.userData b.header)).1.Describes cfg base
      (bs ++ [b]) := by
  have hentries : x.entries ≠ [] := fun hnil => hne (hx.entries_eq_nil.1 hnil)
  have hne' : bs ++ [b] ≠ [] := append_ne_nil_of_left_ne_nil hne _
  obtain ⟨l, hl, heq⟩ := exists_maybeIndex_of_ne_nil hentries acc step (fileSize bs) b.header
    (cfg.userData b.header)
  rw [heq]
  rcases hu : cfg.userData b.header with _ | _
  · rw [hu, resetTimestamps_false] at hl
    obtain rfl : l = [] := hl.resolve_right fun hand => Bool.false_ne_true hand.1
    rw [resetTimestamps_false, append_nil]
    have hconcat : ∀ p : Batch → Prop, (∃ c ∈ bs ++ [b], cfg.userData c.header = true ∧ p c) ↔
        ∃ c ∈ bs, cfg.userData c.header = true ∧ p c := by
      simp [or_and_right, exists_or, hu]
    refine ⟨hx.baseOffset, ?_, fun i e he => ?_, ?_, hx.entries_of_nonData, fun hexists t => ?_⟩
    · exact iff_of_false hentries hne'
    · exact (hx.entry i e he).append b
    · rw [hx.nonData, forall_mem_concat]
      exact ⟨fun hall => ⟨hne', hall.2, hu⟩, fun hall => ⟨hne, hall.2.1⟩⟩
    · obtain ⟨c, hc, hcu, -⟩ := (hconcat fun _ => True).1 (by simpa using hexists)
      rw [hconcat]
      exact hx.maxTimestamp ⟨c, hc, hcu⟩ t
  · obtain ⟨hentry, hbase', hnot, hnil, hmax⟩ := hx.resetTimestamps hu
    rw [hu] at hl
    generalize x.resetTimestamps b.header true = y at *
    have hy : y.entries ≠ [] := fun hy => hentries (hnil.1 hy)
    refine ⟨hbase', ?_, fun i e he => ?_, ?_, fun h => ?_, fun _ t => hmax hne t⟩
    · exact iff_of_false (append_ne_nil_of_left_ne_nil hy _) hne'
    · rcases Nat.lt_or_ge i y.entries.length with hlt | hge
      · rw [getElem?_append_left hlt] at he
        exact (hentry i e he).append b
      · -- the new entry is not the first one
        rw [getElem?_append_right hge] at he
        rcases hl with rfl | ⟨-, rfl⟩
        · exact absurd he.symm (Option.some_ne_none e)
        · rw [getElem?_singleton, Option.ite_none_right_eq_some] at he
          obtain rfl := Option.some.inj he.2
          have hpos : i ≠ 0 := Nat.ne_of_gt ((length_pos_iff.2 hy).trans_le hge)
          exact entryOf_newEntry bs (x := y) (hbase'.trans_le hbase) (fun h => absurd h hpos)
            fun _ => rfl
    · dsimp only
      rw [hnot]
      refine iff_of_false Bool.false_ne_true fun hall => ?_
      exact Bool.false_ne_true ((hall.2 b (mem_concat_self)).symm.trans hu)
    · exact absurd (hnot.symm.trans h) Bool.false_ne_true

end Describes

theorem batchTimestampsAreMonotonic_maybeIndex :
    (x.maybeIndex acc step pos h u).1.batchTimestampsAreMonotonic =
      x.batchTimestampsAreMonotonic := by
  simp only [maybeIndex, initTimestamps, resetTimestamps]
  split_ifs <;> rfl

end IndexState

/-- What the index of a segment says about its batches and the order of their timestamps. -/
structure Indexed (cfg : IndexConfig) (base : Int) (x : SegmentIndex) (bs : List Batch) : Prop where
  state : x.state.Describes cfg base bs
  monotonic : x.state.batchTimestampsAreMonotonic = true →
    (bs.Pairwise fun b b' => b.indexTimestamp ≤ b'.header.maxTimestamp) ∧
      ∀ b ∈ bs, b.indexTimestamp ≤ x.lastBatchMaxTimestamp

namespace Indexed

variable {x : SegmentIndex}

theorem maybeTrack (hx : Indexed cfg base x bs) (hbase : base ≤ b.baseOffset)
    (hhead : bs = [] → b.baseOffset - base ≤ 2 ^ 32 - 1) :
    Indexed cfg base (x.maybeTrack cfg b.header (fileSize bs)) (bs ++ [b]) := by
  refine ⟨?_, fun h => ?_⟩
  · have hstate : ({ x.state with
        batchTimestampsAreMonotonic := x.state.batchTimestampsAreMonotonic &&
          decide (x.lastBatchMaxTimestamp ≤ b.header.maxTimestamp) } : IndexState).Describes
            cfg base bs := { hx.state with }
    by_cases hne : bs = []
    · subst hne
      exact hstate.maybeIndex_nil hbase (hhead rfl)
    · exact hstate.maybeIndex_concat hne hbase
  · rw [SegmentIndex.maybeTrack] at h
    dsimp only at h
    rw [IndexState.batchTimestampsAreMonotonic_maybeIndex] at h
    obtain ⟨hmono, hle⟩ := Bool.and_eq_true_iff.1 h
    obtain ⟨hpairwise, hmax⟩ := hx.monotonic hmono
    have hle' : ∀ c ∈ bs, c.indexTimestamp ≤ b.header.maxTimestamp := fun c hc =>
      (hmax c hc).trans (of_decide_eq_true hle)
    exact ⟨pairwise_concat.2 ⟨hpairwise, hle'⟩,
      forall_mem_concat.2 ⟨fun c hc => (hle' c hc).trans (le_max_right _ _), le_rfl⟩⟩

end Indexed

/-- The segment has the batches, and their index. -/
structure BuiltFrom (cfg : IndexConfig) (d : SegmentData) (s : Segment) (bs : List Batch) :
    Prop where
  term : s.term = d.term
  baseOffset : s.baseOffset = d.baseOffset
  batches : s.batches = bs
  index : Indexed cfg d.baseOffset s.index bs

/-- A segment has the batches that were appended to it. -/
theorem SegmentData.builtFrom_build (cfg : IndexConfig) {d : SegmentData}
    (hbase : ∀ b ∈ d.batches, d.baseOffset ≤ b.baseOffset)
    (hhead : ∀ b ∈ d.batches.head?, b.baseOffset - d.baseOffset ≤ 2 ^ 32 - 1) :
    BuiltFrom cfg d (d.build cfg) d.batches := by
  have hall : ∀ l bs s, bs ++ l = d.batches → BuiltFrom cfg d s bs →
      BuiltFrom cfg d (l.foldl (Segment.append cfg) s) d.batches := by
    intro l
    induction l with
    | nil =>
      intro bs s hbs hs
      rwa [← hbs, append_nil]
    | cons b l ih =>
      rintro _ s hbs ⟨hterm, hoffset, rfl, hindex⟩
      have hb : b ∈ d.batches := hbs ▸ mem_append_right _ mem_cons_self
      refine ih (s.batches ++ [b]) (s.append cfg b) ?_ ⟨hterm, hoffset, rfl,
        hindex.maybeTrack (hbase b hb) fun hnil => hhead b ?_⟩
      · rw [← hbs]
        exact append_cons s.batches b l |>.symm
      · rw [← hbs, hnil]
        rfl
  refine hall d.batches [] (Segment.make cfg d.term d.baseOffset) rfl
    ⟨rfl, rfl, rfl, ?_, fun _ => ?_⟩
  · refine ⟨rfl, iff_of_true rfl rfl, fun i e he => ?_, ?_,
      fun h => absurd h Bool.false_ne_true, ?_⟩
    · exact nomatch he
    · exact iff_of_false Bool.false_ne_true fun h => h.1 rfl
    · rintro ⟨b, hb, -⟩
      cases hb
  · exact ⟨Pairwise.nil, fun b hb => absurd hb not_mem_nil⟩

/-! ## Reading -/

/-- The batches follow each other. -/
def Sorted (bs : List Batch) : Prop :=
  bs.Pairwise fun b b' => b.lastOffset < b'.baseOffset

namespace IndexState

variable {e : IndexEntry}

/-- The batches before an entry are before its offset. -/
theorem EntryOf.split {i : Nat} (he : x.EntryOf bs i e) (hsorted : Sorted bs) :
    ∃ pre post, bs = pre ++ post ∧ e.filepos = fileSize pre ∧
      ∀ b ∈ pre, b.lastOffset < x.entryOffset e := by
  obtain ⟨pre, c, post, rfl, hoffset, hpos, -⟩ := he
  refine ⟨pre, c :: post, rfl, hpos, fun b hb => ?_⟩
  rw [hoffset]
  exact (pairwise_append.1 hsorted).2.2 b hb c mem_cons_self

/-- Seeking to an offset skips only batches before it. -/
theorem Describes.findNearestOffset (hx : x.Describes cfg base bs) (hsorted : Sorted bs) (o : Int) :
    ∃ pre post, bs = pre ++ post ∧
      (x.findNearestOffset o).elim 0 IndexEntry.filepos = fileSize pre ∧
      ∀ b ∈ pre, b.lastOffset < o := by
  rcases he : x.findNearestOffset o with _ | e
  · exact ⟨[], bs, rfl, rfl, by simp⟩
  · rw [IndexState.findNearestOffset] at he
    split_ifs at he with hnone hlarge
    · obtain ⟨pre, c, post, hbs, -, hpos, hzero, -⟩ := hx.entry 0 e (head?_eq_getElem? ▸ he)
      refine ⟨pre, c :: post, hbs, hpos, fun b hb => ?_⟩
      rw [hzero rfl] at hb
      cases hb
    · have hmem := mem_of_find?_eq_some he
      have hle := find?_some he
      obtain ⟨i, hi⟩ := mem_iff_getElem?.1 (mem_of_mem_take (mem_reverse.1 hmem))
      obtain ⟨pre, post, hbs, hpos, hlt⟩ := (hx.entry i e hi).split hsorted
      refine ⟨pre, post, hbs, hpos, fun b hb => (hlt b hb).trans_le ?_⟩
      have hle' : e.relativeOffset ≤ (o - x.baseOffset).toNat := of_decide_eq_true hle
      rw [entryOffset]
      omega

section

variable (hwf : ∀ b ∈ bs, b.Wf) (hsorted : Sorted bs)
  (hmono : bs.Pairwise fun b b' => b.indexTimestamp ≤ b'.header.maxTimestamp) {t : Int}

include hwf hsorted hmono

/-- An entry that is the first one, or whose timestamp is too small, comes before all batches with
    timestamps that are large enough. -/
theorem EntryOf.le_baseOffset {i : Nat} (he : x.EntryOf bs i e)
    (ht : i ≠ 0 → e.relativeTime < offsetTimeIndex x.withOffset (t - x.baseTimestamp)) :
    ∀ b ∈ bs, t ≤ b.header.maxTimestamp → x.entryOffset e ≤ b.baseOffset := by
  obtain ⟨pre, c, post, rfl, hoffset, -, hzero, htime⟩ := he
  intro b hb hle
  rw [hoffset]
  rcases mem_append.1 hb with hpre | hpost
  · -- the batches before the entry have smaller timestamps, as it is not the first one
    have hi : i ≠ 0 := by
      intro hi
      rw [hzero hi] at hpre
      cases hpre
    have hlt := ht hi
    rw [htime hi] at hlt
    have hc : c.indexTimestamp < t := by
      have hsub := lt_of_offsetTimeIndex_lt hlt
      omega
    have hbc := (pairwise_append.1 hmono).2.2 b hpre c mem_cons_self
    have hb' : b.header.maxTimestamp ≤ b.indexTimestamp := le_max_right _ _
    have hc' : c.header.maxTimestamp ≤ c.indexTimestamp := le_max_right _ _
    omega
  · rcases mem_cons.1 hpost with rfl | hpost
    · exact le_rfl
    · have hlt := rel_of_pairwise_cons (pairwise_append.1 hsorted).2.1 hpost
      exact (hwf c (mem_append_right _ mem_cons_self)).base_le_last.trans hlt.le

/-- Seeking to a timestamp skips only batches with smaller ones. -/
theorem Describes.findNearestTime (hx : x.Describes cfg base bs)
    (he : x.findNearestTime t = some e) :
    ∀ b ∈ bs, t ≤ b.header.maxTimestamp → x.entryOffset e ≤ b.baseOffset := by
  rw [IndexState.findNearestTime] at he
  split_ifs at he with hlt
  rw [findEntry] at he
  split_ifs at he with hend
  refine (hx.entry _ e he).le_baseOffset hwf hsorted hmono fun hi => ?_
  obtain ⟨i, e', hdist, he', hlt'⟩ :=
    exists_of_lowerBound_pos (Nat.pos_of_ne_zero fun h => hi (by rw [h]))
  rw [hdist, Nat.add_sub_cancel, he'] at he
  cases he
  exact of_decide_eq_true hlt'

end

end IndexState

theorem dataStream_append {pre post : List Batch} (hwf : ∀ b ∈ pre, b.Wf) :
    Segment.dataStream (fileSize pre) (pre ++ post) = post := by
  induction pre with
  | nil =>
    cases post with
    | nil => rfl
    | cons b post => rfl
  | cons b pre ih =>
    rw [forall_mem_cons] at hwf
    have hsize : fileSize (b :: pre) = b.header.sizeBytes + fileSize pre := by
      rw [fileSize, map_cons, sum_cons, fileSize]
    have hpos := hwf.1.size_pos
    rw [cons_append, Segment.dataStream, if_neg (by omega), hsize, Nat.add_sub_cancel_left]
    exact ih hwf.2

variable {d : SegmentData}

namespace TimequeryConfig

variable (q : TimequeryConfig)

/-- The batch has data, overlaps the range and has a timestamp that is large enough. -/
def BatchCandidate (b : Batch) : Prop :=
  b.header.type = .raftData ∧ b.baseOffset ≤ q.maxOffset ∧ q.minOffset ≤ b.lastOffset ∧
    q.time ≤ b.header.maxTimestamp
  deriving Decidable

/-- The segment overlaps the range and has a timestamp of user data that is large enough. -/
def SegmentCandidate (cfg : IndexConfig) (d : SegmentData) : Prop :=
  (∃ b ∈ d.batches, cfg.userData b.header = true ∧ q.time ≤ b.indexTimestamp) ∧
    d.baseOffset ≤ q.maxOffset ∧ ∃ b ∈ d.batches.getLast?, q.minOffset ≤ b.lastOffset
  deriving Decidable

variable {q}

/-- The reader returns the first batch with data that overlaps the range from its start on and has a
    timestamp that is large enough. -/
theorem readBatch_eq (hwf : ∀ b ∈ bs, b.Wf) (hsorted : Sorted bs) (start : Int) :
    q.readBatch start bs = bs.find? fun b =>
      decide (b.header.type = .raftData ∧ b.baseOffset ≤ q.maxOffset ∧ start ≤ b.lastOffset ∧
        q.time ≤ b.header.maxTimestamp) := by
  induction bs generalizing start with
  | nil => rfl
  | cons b bs ih =>
    rw [forall_mem_cons] at hwf
    obtain ⟨hlt, hsorted⟩ := pairwise_cons.1 hsorted
    have hle : ∀ c ∈ bs, b.lastOffset < c.lastOffset := fun c hc =>
      (hlt c hc).trans_le (hwf.2 c hc).base_le_last
    -- after a batch that was skipped, the reader goes on with all later ones
    have hskip : ¬ b.lastOffset < start → q.readBatch (b.lastOffset + 1) bs = bs.find? fun b =>
        decide (b.header.type = .raftData ∧ b.baseOffset ≤ q.maxOffset ∧ start ≤ b.lastOffset ∧
          q.time ≤ b.header.maxTimestamp) := by
      intro hstart
      rw [ih hwf.2 hsorted]
      refine find?_congr fun c hc => decide_eq_decide.2 ?_
      have hbc : b.lastOffset + 1 ≤ c.lastOffset ↔ start ≤ c.lastOffset :=
        iff_of_true (hle c hc) ((Int.not_lt.1 hstart).trans (hle c hc).le)
      rw [hbc]
    rw [readBatch, find?_cons]
    split_ifs with hmax hstart htype htime
    · -- all later batches are after the range, too
      rw [decide_eq_false (by omega)]
      refine (find?_eq_none.2 fun c hc hcand => ?_).symm
      have hcand' := of_decide_eq_true hcand
      have hbc := hlt c hc
      have hb := hwf.1.base_le_last
      omega
    · rw [decide_eq_false (by omega)]
      exact ih hwf.2 hsorted start
    · rw [decide_eq_false fun hand => htype hand.1]
      exact hskip hstart
    · rw [decide_eq_false (by omega)]
      exact hskip hstart
    · rw [decide_eq_true ⟨not_not.1 htype, by omega, by omega, by omega⟩]

section

variable (hwf : ∀ b ∈ d.batches, b.Wf) (hsorted : Sorted d.batches)
  (hbase : ∀ b ∈ d.batches, d.baseOffset ≤ b.baseOffset)
  (hhead : ∀ b ∈ d.batches.head?, b.baseOffset - d.baseOffset ≤ 2 ^ 32 - 1)

include hbase hhead

/-- The index has the timestamps of the user data. -/
theorem accepts_build : q.accepts (d.build cfg) = decide (q.SegmentCandidate cfg d) := by
  obtain ⟨-, hoffset, hbatches, hindex⟩ := SegmentData.builtFrom_build cfg hbase hhead
  rw [accepts, hbatches, hoffset, Bool.eq_iff_iff, decide_eq_true_iff, SegmentCandidate]
  rcases hlast : d.batches.getLast? with _ | b
  · refine iff_of_false Bool.false_ne_true fun hcand => ?_
    obtain ⟨b, hb, -⟩ := hcand.2.2
    exact Option.not_mem_none b hb
  · have hne : d.batches ≠ [] := fun hnil => by
      simp [hnil] at hlast
    have hexists : (∃ b' ∈ some b, q.minOffset ≤ b'.lastOffset) ↔ q.minOffset ≤ b.lastOffset := by
      simp
    dsimp only
    rw [hexists]
    split_ifs with hnot hlt
    · refine iff_of_false not_false fun hcand => ?_
      obtain ⟨c, hc, hu, -⟩ := hcand.1
      exact (hindex.state.exists_userData hne).1 ⟨c, hc, hu⟩ hnot
    · refine iff_of_false not_false fun hcand => ?_
      obtain ⟨c, hc, hu, hle⟩ := hcand.1
      exact absurd ((hindex.state.maxTimestamp ⟨c, hc, hu⟩ q.time).2 ⟨c, hc, hu, hle⟩)
        (Int.not_le.2 hlt)
    · have huser := (hindex.state.exists_userData hne).2 hnot
      have hle := (hindex.state.maxTimestamp huser q.time).1 (Int.not_lt.1 hlt)
      rw [decide_eq_true_iff]
      exact (and_iff_right hle).symm

include hwf hsorted

/-- The reader does not start after a batch that it has to read. -/
theorem startOffset_le (cfg : IndexConfig) (hb : b ∈ d.batches)
    (hle : q.time ≤ b.header.maxTimestamp) :
    q.startOffset (d.build cfg) ≤ max q.minOffset b.baseOffset := by
  obtain ⟨-, hoffset, hbatches, hindex⟩ := SegmentData.builtFrom_build cfg hbase hhead
  rw [startOffset]
  refine max_le_max_left q.minOffset ?_
  split_ifs with hmono
  · rcases he : (d.build cfg).index.state.findNearestTime q.time with _ | e
    · exact hoffset.trans_le (hbase b hb)
    · exact hindex.state.findNearestTime hwf hsorted (hindex.monotonic hmono).1 he b hb hle
  · exact hoffset.trans_le (hbase b hb)

/-- The batch that is read is the first one of the segment that it has to be. -/
theorem readBatch_build :
    (if q.maxOffset < q.startOffset (d.build cfg) then none
      else q.readBatch (q.startOffset (d.build cfg))
        ((d.build cfg).offsetDataStream (q.startOffset (d.build cfg)))) =
      d.batches.find? fun b => decide (q.BatchCandidate b) := by
  obtain ⟨-, hoffset, hbatches, hindex⟩ := SegmentData.builtFrom_build cfg hbase hhead
  have hle : q.minOffset ≤ q.startOffset (d.build cfg) := le_max_left _ _
  have hstart := fun b => startOffset_le (q := q) (b := b) hwf hsorted hbase hhead cfg
  rw [Segment.offsetDataStream, hbatches]
  generalize q.startOffset (d.build cfg) = start at hle hstart ⊢
  split_ifs with hmax
  · refine (find?_eq_none.2 fun b hb hcand => ?_).symm
    obtain ⟨-, hbase', -, htime⟩ := of_decide_eq_true hcand
    have hs := hstart b hb htime
    have hq := q.le
    omega
  · obtain ⟨pre, post, hbs, hpos, hlt⟩ := hindex.state.findNearestOffset hsorted start
    rw [hpos]
    rw [hbs] at hwf hsorted hstart ⊢
    rw [dataStream_append fun b hb => hwf b (mem_append_left _ hb),
      readBatch_eq (fun b hb => hwf b (mem_append_right _ hb)) (pairwise_append.1 hsorted).2.1]
    have hpre : (pre.find? fun b => decide (q.BatchCandidate b)) = none := by
      refine find?_eq_none.2 fun b hb hcand => ?_
      obtain ⟨-, -, hmin, htime⟩ := of_decide_eq_true hcand
      have hs := hstart b (mem_append_left _ hb) htime
      have hb' := (hwf b (mem_append_left _ hb)).base_le_last
      have hl := hlt b hb
      omega
    rw [find?_append, hpre, Option.none_or]
    refine find?_congr fun b hb => decide_eq_decide.2 ?_
    rw [BatchCandidate]
    refine and_congr_right fun _ => and_congr_right fun _ => and_congr_left fun htime => ?_
    have hs := hstart b (mem_append_right _ hb) htime
    have hb' := (hwf b (mem_append_right _ hb)).base_le_last
    omega

end

end TimequeryConfig

/-! ## Queries -/

namespace Log

variable (log : Log) (cfg : IndexConfig) (q : TimequeryConfig)

/-- The first segment that overlaps the range and has a timestamp that is large enough is the one to
    look at. Its first data batch with these properties has a record that the query looks for, or
    there is no such batch, and no such record in the log. -/
def Searchable : Prop :=
  match log.segments.find? fun d => decide (q.SegmentCandidate cfg d) with
  | none => True
  | some d =>
    match d.batches.find? fun b => decide (q.BatchCandidate b) with
    | none => log.NoMatch q
    | some b => ∃ r ∈ b.records, Matches q b r

variable {log cfg q} {r : Record}

theorem sorted_batches (hd : d ∈ log.segments) : Sorted d.batches :=
  (pairwise_flatMap.1 log.sorted).1 d hd

/-- What a query looks at, without the index. -/
theorem timequery_eq : log.timequery cfg q =
    match log.segments.find? fun d => decide (q.SegmentCandidate cfg d) with
    | none => none
    | some d =>
      (d.batches.find? fun b => decide (q.BatchCandidate b)).map (q.batchTimequery d.term) := by
  have hfind : log.segments.find? (q.accepts ∘ SegmentData.build cfg) =
      log.segments.find? fun d => decide (q.SegmentCandidate cfg d) :=
    find?_congr fun d hd =>
      TimequeryConfig.accepts_build (log.base_le d hd) (log.head_le d hd)
  rw [timequery, TimequeryConfig.timequery, find?_map, hfind]
  rcases hsome : log.segments.find? fun d => decide (q.SegmentCandidate cfg d) with _ | d
  · rfl
  · have hd := mem_of_find?_eq_some hsome
    have hterm := (SegmentData.builtFrom_build cfg (log.base_le d hd) (log.head_le d hd)).1
    dsimp only [Option.map_some]
    rw [TimequeryConfig.readBatch_build (log.wf d hd) (sorted_batches hd) (log.base_le d hd)
      (log.head_le d hd), hterm]
    rcases hb : d.batches.find? fun b => decide (q.BatchCandidate b) with _ | b
    · rfl
    · have hcand := find?_some hb
      exact if_pos (of_decide_eq_true hcand).2.2.2

/-- The batch of a record that a query looks for could be read. -/
theorem batchCandidate_of_matches (hd : d ∈ log.segments) (hb : b ∈ d.batches)
    (hr : r ∈ b.records) (h : Matches q b r) : q.BatchCandidate b := by
  obtain ⟨htype, ⟨hmin, hmax⟩, htime⟩ := h
  have hwf := log.wf d hd b hb
  exact ⟨htype, (hwf.base_le r hr).trans hmax, hmin.trans (hwf.le_last r hr),
    htime.trans (hwf.le_max r hr)⟩

theorem segmentCandidate_of_batchCandidate (cfg : IndexConfig) (hd : d ∈ log.segments)
    (hb : b ∈ d.batches) (h : q.BatchCandidate b) : q.SegmentCandidate cfg d := by
  obtain ⟨htype, hbase, hlast, htime⟩ := h
  refine ⟨⟨b, hb, ?_, htime.trans (le_max_right _ _)⟩, (log.base_le d hd b hb).trans hbase, ?_⟩
  · rw [IndexConfig.userData, htype]
    exact Bool.or_true _
  · obtain ⟨c, hc⟩ := exists_getLast?_eq_some hb
    refine ⟨c, hc, hlast.trans ?_⟩
    rcases eq_or_rel_of_getLast? (sorted_batches hd) hc hb with rfl | hlt
    · exact le_rfl
    · have hc' := (log.wf d hd c (mem_of_getLast? hc)).base_le_last
      exact (hlt.trans_le hc').le

variable {d' : SegmentData} {b' : Batch}

/-- Batches with a common offset are the same. -/
theorem eq_of_offset (hd : d ∈ log.segments) (hb : b ∈ d.batches)
    (hd' : d' ∈ log.segments) (hb' : b' ∈ d'.batches) {o : Int} (hbase : b.baseOffset ≤ o)
    (hlast : o ≤ b.lastOffset) (hbase' : b'.baseOffset ≤ o) (hlast' : o ≤ b'.lastOffset) :
    b = b' := by
  refine (eq_or_rel_of_pairwise log.sorted (mem_flatMap.2 ⟨d, hd, hb⟩)
    (mem_flatMap.2 ⟨d', hd', hb'⟩)).resolve_right fun hor => ?_
  omega

section

variable (hd : log.segments.find? (fun d => decide (q.SegmentCandidate cfg d)) = some d)
  (hb : d.batches.find? (fun b => decide (q.BatchCandidate b)) = some b)

include hd hb

/-- All other batches that could be read come after the one that is. -/
theorem eq_or_lastOffset_lt (hd' : d' ∈ log.segments) (hb' : b' ∈ d'.batches)
    (hcand : q.BatchCandidate b') : b' = b ∨ b.lastOffset < b'.baseOffset := by
  have hsegment := segmentCandidate_of_batchCandidate cfg hd' hb' hcand
  rcases eq_or_rel_of_find? (pairwise_flatMap.1 log.sorted).2 hd hd' (decide_eq_true hsegment) with
    rfl | hlt
  · -- in the same segment
    exact eq_or_rel_of_find? (sorted_batches hd') hb hb' (decide_eq_true hcand)
  · exact .inr (hlt b (mem_of_find?_eq_some hb) b' hb')

/-- The record found in the first batch is the first one. -/
theorem answers_batchTimequery :
    log.Answers q (some (q.batchTimequery d.term b)) ↔ ∃ r ∈ b.records, Matches q b r := by
  have hmem := mem_of_find?_eq_some hd
  have hmemb := mem_of_find?_eq_some hb
  have hcand := find?_some hb
  rw [decide_eq_true_iff] at hcand
  have hwf := log.wf d hmem b hmemb
  rw [TimequeryConfig.batchTimequery]
  rcases hr : b.records.find? _ with _ | r
  · -- the base offset of the batch is not that of a record that the query looks for
    have hnone : ¬ ∃ r ∈ b.records, Matches q b r := by
      rintro ⟨r, hmemr, -, hcontains, htime⟩
      exact absurd (decide_eq_true ⟨htime, hcontains⟩) (find?_eq_none.1 hr r hmemr)
    refine iff_of_false ?_ hnone
    rintro ⟨d', hd', b', hb', r', hr', hmatch, heq, -⟩
    have hoffset : b.baseOffset = b'.offsetOf r' := congrArg TimequeryResult.offset heq
    have hwf' := log.wf d' hd' b' hb'
    obtain rfl := eq_of_offset hmem hmemb hd' hb' le_rfl hwf.base_le_last
      (hoffset ▸ hwf'.base_le r' hr') (hoffset ▸ hwf'.le_last r' hr')
    exact hnone ⟨r', hr', hmatch⟩
  · have hmemr := mem_of_find?_eq_some hr
    have hfound := find?_some hr
    rw [decide_eq_true_iff] at hfound
    have hmatch : Matches q b r := ⟨hcand.1, hfound.2, hfound.1⟩
    refine iff_of_true ⟨d, hmem, b, hmemb, r, hmemr, hmatch, rfl, ?_⟩ ⟨r, hmemr, hmatch⟩
    intro d' hd' b' hb' r' hr' hmatch'
    have hcand' := batchCandidate_of_matches hd' hb' hr' hmatch'
    rcases eq_or_lastOffset_lt hd hb hd' hb' hcand' with rfl | hlt
    · -- in the same batch, the first one is found
      rcases eq_or_rel_of_find? hwf.sorted hr hr' (decide_eq_true ⟨hmatch'.2.2, hmatch'.2.1⟩) with
        rfl | hlt
      · exact le_rfl
      · exact Int.add_le_add_left hlt.le _
    · have hle := hwf.le_last r hmemr
      have hle' := (log.wf d' hd' b' hb').base_le r' hr'
      exact hle.trans (hlt.le.trans hle')

end

/-- A time query answers with the first record that it looks for, and with nothing if there is none,
    exactly if the log is searchable. -/
theorem answers_timequery_iff (log : Log) (cfg : IndexConfig) (q : TimequeryConfig) :
    log.Answers q (log.timequery cfg q) ↔ log.Searchable cfg q := by
  rw [timequery_eq, Searchable]
  rcases hd : log.segments.find? fun d => decide (q.SegmentCandidate cfg d) with _ | d
  · refine iff_of_true ?_ trivial
    intro d hmem b hb r hr hmatch
    have hcand := segmentCandidate_of_batchCandidate cfg hmem hb
      (batchCandidate_of_matches hmem hb hr hmatch)
    exact find?_eq_none.1 hd d hmem (decide_eq_true hcand)
  · dsimp only
    rcases hb : d.batches.find? fun b => decide (q.BatchCandidate b) with _ | b
    · exact Iff.rfl
    · exact answers_batchTimequery hd hb

/-- A data batch with one record, with an offset and a timestamp. -/
def oneRecordBatch (offset timestamp : Int) : Batch where
  header :=
    { sizeBytes := 70, baseOffset := offset, type := .raftData, lastOffsetDelta := 0,
      firstTimestamp := timestamp, maxTimestamp := timestamp, producerId := -1,
      producerEpoch := -1, baseSequence := -1, recordCount := 1 }
  records := [⟨6, 0, 0, 0, -1, [], -1, [], []⟩]

theorem oneRecordBatch_wf (offset timestamp : Int) : (oneRecordBatch offset timestamp).Wf := by
  refine ⟨Nat.succ_pos 69, ?_, pairwise_singleton _ _, ?_, ?_, ?_⟩
  · exact (Int.add_zero offset).ge
  · exact forall_mem_singleton.2 (Int.add_zero offset).ge
  · exact forall_mem_singleton.2 le_rfl
  · exact forall_mem_singleton.2 (Int.add_zero timestamp).le

/-- The first segment has a large timestamp and then a small one, the second segment a large one. -/
def twoSegments : Log where
  segments :=
    [⟨1, 0, [oneRecordBatch 0 100, oneRecordBatch 1 1]⟩, ⟨1, 2, [oneRecordBatch 2 100]⟩]
  wf := by simp [oneRecordBatch_wf]
  sorted := by decide
  base_le := by decide
  head_le := by decide

/-- From the second record on, nothing is found although the third record has a large timestamp. -/
theorem exists_missed_record :
    twoSegments.timequery { step := 32768 } { minOffset := 1, time := 50, maxOffset := 2 } = none ∧
      ¬ twoSegments.Answers { minOffset := 1, time := 50, maxOffset := 2 }
        (twoSegments.timequery { step := 32768 }
          { minOffset := 1, time := 50, maxOffset := 2 }) := by
  decide

end Log

end Redpanda.TimeQuery
