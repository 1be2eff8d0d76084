import Redpanda.Cluster.AbortedTransactions

/-!
# The index of aborted transactions

The lemmas about the parts that the index of aborted transactions is made of:

* the segments which ranges are split into (`Offload.Inv.foldl_push`), each of which is named by
  its smallest and its largest offset (`AbortSnapshot.Tight`);
* transactions begin at different offsets (`Ordered.beginApart`), so these names do not clash;
* the ranges in memory and those in the files stand for the aborted transactions (`Covers`),
  and a query reads them all (`Covers.perm_doAbortedTransactions`);
* the producers have the transactions open that are open in the log (`Tracks`), also when they
  come from a snapshot (`Tracks.snapshot`).
-/

namespace Redpanda.Cluster

open Lib List
open RecordBatch (isFence_iff isTxData_iff)
open OrderedStore (get_empty get_eq_none get_eq_some mem_put not_mem_empty)

/-! ## Segments -/

/-- The offsets of a range. -/
def TxRange.offsets (r : TxRange) : Int × Int := (r.first, r.last)

/-- The index is the smallest range with all the ranges of the abort snapshot. -/
structure AbortSnapshot.Tight (a : AbortSnapshot) : Prop where
  bounds : ∀ r ∈ a.aborted, a.first ≤ r.first ∧ r.last ≤ a.last
  exists_first : ∃ r ∈ a.aborted, r.first = a.first

variable {size : Nat}

namespace Offload

/-- The offsets are those of the ranges that were put into the segment. -/
structure Inv (o : Offload) : Prop where
  tight : ∀ a ∈ o.abortedSnapshots, a.Tight
  first_eq_none : o.first = none → o.abortedRanges = []
  first_eq_some : ∀ {f}, o.first = some f →
    (∀ r ∈ o.abortedRanges, f ≤ r.first) ∧ ∃ r ∈ o.abortedRanges, r.first = f
  last_eq_none : o.last = none → o.abortedRanges = []
  last_eq_some : ∀ {l}, o.last = some l → ∀ r ∈ o.abortedRanges, r.last ≤ l

/-- All the ranges, in the segments and the one that is being built. -/
def all (o : Offload) : List TxRange :=
  o.abortedSnapshots.flatMap (·.aborted) ++ o.abortedRanges

theorem inv_init : Inv {} where
  tight := by simp
  first_eq_none _ := rfl
  first_eq_some := by simp
  last_eq_none _ := rfl
  last_eq_some := by simp

theorem all_push (size : Nat) (o : Offload) (entry : TxRange) :
    (o.push size entry).all = o.all ++ [entry] := by
  rw [push, all]
  split <;> simp [all]

variable {o : Offload} {entry : TxRange}

/-- The first offset of the segment with the entry. -/
theorem Inv.first_push (h : o.Inv) :
    (∀ r ∈ o.abortedRanges ++ [entry], o.first.elim entry.first (min · entry.first) ≤ r.first) ∧
      ∃ r ∈ o.abortedRanges ++ [entry],
        r.first = o.first.elim entry.first (min · entry.first) := by
  rcases ho : o.first with - | f
  · rw [h.first_eq_none ho]
    simp
  · obtain ⟨hle, r, hr, hrf⟩ := h.first_eq_some ho
    refine ⟨forall_mem_concat.2 ⟨fun r' hr' => (min_le_left _ _).trans (hle r' hr'),
      min_le_right _ _⟩, ?_⟩
    rcases le_total f entry.first with hf | hf
    · exact ⟨r, mem_append_left _ hr, by simp [hf, hrf]⟩
    · exact ⟨entry, by simp, by simp [hf]⟩

/-- The last offset of the segment with the entry. -/
theorem Inv.last_push (h : o.Inv) :
    ∀ r ∈ o.abortedRanges ++ [entry], r.last ≤ o.last.elim entry.last (max · entry.last) := by
  rcases ho : o.last with - | l
  · rw [h.last_eq_none ho]
    simp
  · exact forall_mem_concat.2 ⟨fun r hr => (h.last_eq_some ho r hr).trans (le_max_left _ _),
      le_max_right _ _⟩

theorem Inv.push (h : o.Inv) (size : Nat) (entry : TxRange) : (o.push size entry).Inv := by
  rw [Offload.push]
  split
  · exact { inv_init with tight := forall_mem_concat.2 ⟨h.tight,
      fun r hr => ⟨h.first_push.1 r hr, h.last_push r hr⟩, h.first_push.2⟩ }
  · exact
      { tight := h.tight
        first_eq_none := by simp
        first_eq_some := fun h' => Option.some.inj h' ▸ h.first_push
        last_eq_none := by simp
        last_eq_some := fun h' => Option.some.inj h' ▸ h.last_push }

theorem Inv.foldl_push (h : o.Inv) (size : Nat) (l : List TxRange) :
    (l.foldl (Offload.push size) o).Inv ∧ (l.foldl (Offload.push size) o).all = o.all ++ l := by
  induction l generalizing o with
  | nil => exact ⟨h, (append_nil _).symm⟩
  | cons r l ih =>
    obtain ⟨hinv, hall⟩ := ih (h.push size r)
    refine ⟨hinv, ?_⟩
    rw [foldl_cons, hall, all_push, append_assoc, singleton_append]

end Offload

/-! ## Transactions begin at different offsets -/

/-- The transactions that are aborted or open begin at batches of the log, each at its own. -/
structure BeginApart (log : List RecordBatch) : Prop where
  nodup : ((abortedTxs log).map (·.1)).Nodup
  mem_aborted : ∀ t ∈ abortedTxs log, ∃ b ∈ log, b.header.baseOffset = t.1
  mem_open : ∀ {id t}, openTx id log = some t → ∃ b ∈ log, b.header.baseOffset = t.1
  open_ne : ∀ {id t}, openTx id log = some t → ∀ t' ∈ abortedTxs log, t'.1 ≠ t.1
  open_inj : ∀ {id id' t t'}, openTx id log = some t → openTx id' log = some t' → t.1 = t'.1 →
    id = id'

variable {b : RecordBatch}

/-- The transaction that a batch leaves open began before, or it begins with the batch. -/
theorem openStep_eq_some {id : Int} {t : Option (Int × Int)} {u : Int × Int}
    (h : openStep id t b = some u) :
    (b.pid.id = id ∧ u.1 = b.header.baseOffset) ∨
      (b.isEnd id = false ∧ ∃ v, t = some v ∧ u.1 = v.1) := by
  rw [openStep] at h
  split_ifs at h with hfence hend hdata
  · cases h
    exact .inl ⟨(isFence_iff.1 hfence).2, rfl⟩
  · cases h
    rcases t with - | v
    · exact .inl ⟨(isTxData_iff.1 hdata).2, rfl⟩
    · exact .inr ⟨Bool.not_eq_true _ ▸ hend, v, rfl, rfl⟩
  · exact .inr ⟨Bool.not_eq_true _ ▸ hend, u, h, rfl⟩

theorem beginApart_nil : BeginApart [] where
  nodup := nodup_nil
  mem_aborted _ h := absurd h not_mem_nil
  mem_open h := absurd h (by simp)
  open_ne h := absurd h (by simp)
  open_inj h := absurd h (by simp)

theorem RecordBatch.isEnd_of_isControl {id : Int} (h : b.isControl id .txAbort) : b.isEnd id := by
  rw [RecordBatch.isEnd, h, Bool.true_or]

variable {log : List RecordBatch}

section

/-- The transaction that a batch aborts was open. -/
theorem mem_abortedTxs_concat {t : Int × Int} :
    t ∈ abortedTxs (log ++ [b]) ↔
      t ∈ abortedTxs log ∨ b.isControl b.pid.id .txAbort ∧ openTx b.pid.id log = some t := by
  rw [abortedTxs_concat, mem_append]
  split
  · rename_i h
    rw [Option.mem_toList]
    simp [h]
  · rename_i h
    simp [h]

/-- What was aborted before began before, and so did what the batch aborts. -/
theorem BeginApart.exists_of_mem_concat (h : BeginApart log) {t : Int × Int}
    (ht : t ∈ abortedTxs (log ++ [b])) : ∃ b' ∈ log, b'.header.baseOffset = t.1 :=
  (mem_abortedTxs_concat.1 ht).elim (h.mem_aborted t) fun ht => h.mem_open ht.2

theorem BeginApart.concat (h : BeginApart log)
    (hb : ∀ b' ∈ log, b'.header.baseOffset < b.header.baseOffset) : BeginApart (log ++ [b]) where
  nodup := by
    rw [abortedTxs_concat, map_append]
    refine nodup_append.2 ⟨h.nodup, ?_, ?_⟩
    · split
      · rcases openTx b.pid.id log with - | t <;> simp
      · simp
    · intro f hf f' hf'
      obtain ⟨t, ht, rfl⟩ := mem_map.1 hf
      obtain ⟨t', ht', rfl⟩ := mem_map.1 hf'
      split at ht'
      · exact h.open_ne (Option.mem_toList.1 ht') t ht
      · cases ht'
  mem_aborted t ht := by
    obtain ⟨b', hb', he⟩ := h.exists_of_mem_concat ht
    exact ⟨b', mem_append_left _ hb', he⟩
  mem_open hopen := by
    rw [openTx_concat] at hopen
    rcases openStep_eq_some hopen with ⟨-, he⟩ | ⟨-, v, hv, he⟩
    · exact ⟨b, by simp, he.symm⟩
    · obtain ⟨b', hb', he'⟩ := h.mem_open hv
      exact ⟨b', mem_append_left _ hb', he'.trans he.symm⟩
  open_ne {id t} hopen t' ht' := by
    rw [openTx_concat] at hopen
    rcases openStep_eq_some hopen with ⟨hid, he⟩ | ⟨hend, v, hv, he⟩
    -- the transaction starts with `b`, whose offset is new
    · obtain ⟨b', hb', he'⟩ := h.exists_of_mem_concat ht'
      rw [he, ← he']
      exact (hb b' hb').ne
    · rw [he]
      rcases mem_abortedTxs_concat.1 ht' with ht' | ⟨hctl, ht'⟩
      · exact h.open_ne hv t' ht'
      -- `b` aborts the other one, which therefore is open no more
      · intro heq
        simp [← h.open_inj ht' hv heq, RecordBatch.isEnd_of_isControl hctl] at hend
  open_inj hopen hopen' heq := by
    rw [openTx_concat] at hopen hopen'
    rcases openStep_eq_some hopen with ⟨hid, he⟩ | ⟨-, v, hv, he⟩ <;>
      rcases openStep_eq_some hopen' with ⟨hid', he'⟩ | ⟨-, v', hv', he'⟩
    · exact hid.symm.trans hid'
    · obtain ⟨b', hb', he''⟩ := h.mem_open hv'
      exact absurd (he.symm.trans (heq.trans (he'.trans he''.symm))) (hb b' hb').ne'
    · obtain ⟨b', hb', he''⟩ := h.mem_open hv
      exact absurd (he''.trans (he.symm.trans (heq.trans he'))) (hb b' hb').ne
    · exact h.open_inj hv hv' (he.symm.trans (heq.trans he'))

end

variable {l : List ProducerStateSnapshot} {p : ProducerState}

theorem Ordered.beginApart (h : Ordered log) (k : Nat) : BeginApart (log.take k) := by
  induction k with
  | zero => exact beginApart_nil
  | succ k ih =>
    rw [take_add_one]
    rcases hk : log[k]? with - | b
    · simpa using ih
    · refine ih.concat fun b' hb' => ?_
      obtain ⟨i, hi, rfl⟩ := getElem_of_mem hb'
      rw [length_take] at hi
      obtain ⟨hk', rfl⟩ := List.getElem?_eq_some_iff.1 hk
      rw [getElem_take]
      have hlt := pairwise_iff_getElem.1 h.lt i k (by omega) hk' (by omega)
      have hle := h.le log[i] (List.getElem_mem _)
      exact lt_of_le_of_lt hle.2 hlt

/-! ## The ranges in memory and in files -/

/-- The offsets of the ranges in a file. -/
def AbortFiles.offsets (files : AbortFiles) (idx : AbortIndex) : List (Int × Int) :=
  (files idx).elim [] fun a => a.aborted.map (·.offsets)

/-- The ranges in memory and the indexes stand for some transactions: apart from those which
    are before the start of the log, each is in memory or in one of the files, once. -/
structure Covers (aborted : List TxRange) (idxs : List AbortIndex) (files : AbortFiles)
    (startOffset : Int) (txs : List (Int × Int)) : Prop where
  perm : ∃ old : List (Int × Int), (∀ t ∈ old, t.2 < startOffset) ∧
    (aborted.map (·.offsets) ++ idxs.flatMap files.offsets ++ old).Perm txs
  file : ∀ idx ∈ idxs, ∀ a, files idx = some a → a.index = idx ∧ a.Tight
  expired : ∀ idx ∈ idxs, files idx = none → idx.last < startOffset

variable {files : AbortFiles} {start : Int} {txs : List (Int × Int)}

namespace Covers

variable {aborted : List TxRange} {idxs : List AbortIndex}

section

variable (h : Covers aborted idxs files start txs)

include h

/-- All that is in a file which has expired is before the start of the log. -/
theorem lt_of_mem_offsets {idx : AbortIndex}
    (hidx : idx ∈ idxs) (hlast : idx.last < start) {t : Int × Int} (ht : t ∈ files.offsets idx) :
    t.2 < start := by
  rw [AbortFiles.offsets] at ht
  rcases hf : files idx with - | a
  · simp [hf] at ht
  · simp only [hf, Option.elim_some, mem_map] at ht
    obtain ⟨r, hr, rfl⟩ := ht
    obtain ⟨rfl, htight⟩ := h.file idx hidx a hf
    exact lt_of_le_of_lt (htight.bounds r hr).2 hlast

theorem mono {start' : Int} (hle : start ≤ start') : Covers aborted idxs files start' txs where
  perm := by
    obtain ⟨old, hold, hperm⟩ := h.perm
    exact ⟨old, fun t ht => (hold t ht).trans_le hle, hperm⟩
  file := h.file
  expired idx hidx hf := (h.expired idx hidx hf).trans_le hle

theorem congr {aborted' : List TxRange}
    (hperm : aborted'.Perm aborted) : Covers aborted' idxs files start txs where
  perm := by
    obtain ⟨old, hold, hp⟩ := h.perm
    exact ⟨old, hold, (((hperm.map _).append_right _).append_right _).trans hp⟩
  __ := h

/-- A file for an index which is not one of them. -/
theorem save {idx : AbortIndex} (hidx : idx ∉ idxs)
    (o : Option AbortSnapshot) : Covers aborted idxs (Function.update files idx o) start txs := by
  have hne : ∀ idx' ∈ idxs, Function.update files idx o idx' = files idx' := fun idx' h' =>
    Function.update_of_ne (ne_of_mem_of_not_mem h' hidx) _ _
  refine ⟨?_, fun idx' h' a ha => h.file idx' h' a (hne idx' h' ▸ ha),
    fun idx' h' hf => h.expired idx' h' (hne idx' h' ▸ hf)⟩
  obtain ⟨old, hold, hp⟩ := h.perm
  refine ⟨old, hold, ?_⟩
  rwa [flatMap_congr fun idx' h' => ?_]
  rw [AbortFiles.offsets, hne idx' h', AbortFiles.offsets]

/-- Ranges that are before the start of the log are dropped. -/
theorem filter : Covers (aborted.filter (start ≤ ·.last)) idxs files start txs where
  perm := by
    obtain ⟨old, hold, hp⟩ := h.perm
    refine ⟨(aborted.filter fun r => !decide (start ≤ r.last)).map (·.offsets) ++ old,
      forall_mem_append.2 ⟨forall_mem_map.2 fun r hr => ?_, hold⟩, ?_⟩
    · simpa [TxRange.offsets] using (mem_filter.1 hr).2
    · have hsplit := (filter_append_perm (start ≤ ·.last) aborted).map TxRange.offsets
      simp only [perm_iff_count, map_append, count_append] at hsplit hp ⊢
      grind
  __ := h

/-- An index that has expired is dropped. -/
theorem drop {idxs' expired : List AbortIndex}
    (hperm : idxs.Perm (idxs' ++ expired)) (hexp : ∀ idx ∈ expired, idx.last < start) :
    Covers aborted idxs' files start txs where
  perm := by
    obtain ⟨old, hold, hp⟩ := h.perm
    refine ⟨expired.flatMap files.offsets ++ old, forall_mem_append.2
      ⟨forall_mem_flatMap.2 fun idx hidx t ht => ?_, hold⟩, ?_⟩
    · exact h.lt_of_mem_offsets (hperm.symm.subset (mem_append_right _ hidx)) (hexp idx hidx) ht
    · have hsplit := hperm.flatMap_right files.offsets
      simp only [perm_iff_count, flatMap_append, count_append] at hsplit hp ⊢
      grind
  file idx hidx := h.file idx (hperm.symm.subset (mem_append_left _ hidx))
  expired idx hidx := h.expired idx (hperm.symm.subset (mem_append_left _ hidx))

end

/-- An index which has expired and whose file was removed stands for nothing. -/
theorem of_drop {idxs' expired : List AbortIndex} (h : Covers aborted idxs' files start txs)
    (hperm : idxs.Perm (idxs' ++ expired)) (hexp : ∀ idx ∈ expired, idx.last < start)
    (hfiles : ∀ idx ∈ expired, files idx = none) : Covers aborted idxs files start txs where
  perm := by
    obtain ⟨old, hold, hp⟩ := h.perm
    have hnil : expired.flatMap files.offsets = [] := by
      refine flatMap_eq_nil_iff.2 fun idx hidx => ?_
      rw [AbortFiles.offsets, hfiles idx hidx]
      rfl
    have hsplit := hperm.flatMap_right files.offsets
    rw [flatMap_append, hnil, append_nil] at hsplit
    exact ⟨old, hold, ((hsplit.append_left _).append_right _).trans hp⟩
  file idx hidx a ha := by
    rcases mem_append.1 (hperm.subset hidx) with hidx | hidx
    · exact h.file idx hidx a ha
    · simp [hfiles idx hidx] at ha
  expired idx hidx hf := by
    rcases mem_append.1 (hperm.subset hidx) with hidx | hidx
    · exact h.expired idx hidx hf
    · exact hexp idx hidx

/-- A file that has expired is removed. -/
theorem remove (h : Covers aborted idxs files start txs) {idx : AbortIndex}
    (hlast : idx.last < start) :
    Covers aborted idxs (Function.update files idx none) start txs := by
  have hperm : idxs.Perm (idxs.filter (· ≠ idx) ++ idxs.filter (fun i => !decide (i ≠ idx))) :=
    (filter_append_perm (· ≠ idx) idxs).symm
  have heq : ∀ i ∈ idxs.filter (fun i => !decide (i ≠ idx)), i = idx := fun i hi => by
    simpa using (mem_filter.1 hi).2
  have hexp : ∀ i ∈ idxs.filter (fun i => !decide (i ≠ idx)), i.last < start := fun i hi =>
    heq i hi ▸ hlast
  refine ((h.drop hperm hexp).save (by simp) none).of_drop hperm hexp fun i hi => ?_
  rw [heq i hi, Function.update_self]

/-- Ranges are moved to files. -/
theorem offload {as : List AbortSnapshot}
    (h : Covers (aborted ++ as.flatMap (·.aborted)) idxs files start txs)
    (hfiles : ∀ a ∈ as, files a.index = some a) (htight : ∀ a ∈ as, a.Tight) :
    Covers aborted (idxs ++ as.map (·.index)) files start txs where
  perm := by
    obtain ⟨old, hold, hp⟩ := h.perm
    refine ⟨old, hold, ?_⟩
    have hoff : (as.map (·.index)).flatMap files.offsets =
        (as.flatMap (·.aborted)).map (·.offsets) := by
      rw [flatMap_map, map_flatMap]
      refine flatMap_congr fun a ha => ?_
      rw [AbortFiles.offsets, hfiles a ha]
      rfl
    simp only [perm_iff_count, flatMap_append, hoff, map_append, count_append] at hp ⊢
    grind
  file := forall_mem_append.2 ⟨h.file, forall_mem_map.2 fun a' ha' a ha => by
    cases (hfiles a' ha').symm.trans ha
    exact ⟨rfl, htight a' ha'⟩⟩
  expired := forall_mem_append.2 ⟨h.expired, forall_mem_map.2 fun a ha hf =>
    nomatch (hfiles a ha).symm.trans hf⟩

/-- A transaction is aborted. -/
theorem abort (h : Covers aborted idxs files start txs) {rs : List TxRange}
    {ts : List (Int × Int)} (hrs : rs.map (·.offsets) = ts) :
    Covers (aborted ++ rs) idxs files start (txs ++ ts) where
  perm := by
    obtain ⟨old, hold, hp⟩ := h.perm
    refine ⟨old, hold, ?_⟩
    simp only [perm_iff_count, map_append, hrs, count_append] at hp ⊢
    grind
  __ := h

end Covers

/-! ## Queries -/

/-- The range of a transaction has an offset between the two. -/
def intersects (lo hi : Int) (t : Int × Int) : Bool := !(t.2 < lo) && !(hi < t.1)

/-- What a query finds in a file. -/
def AbortFiles.query (files : AbortFiles) (lo hi : Int) (idx : AbortIndex) : List TxRange :=
  (files idx).elim [] fun a => filterIntersecting a.aborted lo hi

theorem map_filterIntersecting (l : List TxRange) (lo hi : Int) :
    (filterIntersecting l lo hi).map (·.offsets) = (l.map (·.offsets)).filter (intersects lo hi) := by
  rw [filterIntersecting, filter_map]
  rfl

theorem AbortFiles.map_query (files : AbortFiles) (lo hi : Int) (idx : AbortIndex) :
    (files.query lo hi idx).map (·.offsets) = (files.offsets idx).filter (intersects lo hi) := by
  rw [AbortFiles.query, AbortFiles.offsets]
  rcases files idx with - | a
  · rfl
  · exact map_filterIntersecting a.aborted lo hi

/-- A list in which some elements stand for nothing. -/
theorem perm_flatMap_filter {α β : Type} {p : α → Bool} {f : α → List β} {l : List α}
    (h : ∀ a ∈ l, p a = false → f a = []) : ((l.filter p).flatMap f).Perm (l.flatMap f) := by
  have hnil : (l.filter fun a => !p a).flatMap f = [] :=
    flatMap_eq_nil_iff.2 fun a ha =>
      h a (mem_of_mem_filter ha) (by simpa using (mem_filter.1 ha).2)
  have hsplit := (filter_append_perm p l).flatMap_right f
  rwa [flatMap_append, hnil, append_nil] at hsplit

namespace Covers

variable {a : AbortedTxState} {lo hi : Int}

variable (h : Covers a.aborted a.abortIndexes files start txs)

include h

/-- An index outside of the query has nothing for it. -/
theorem query_eq_nil {idx : AbortIndex}
    (hidx : idx ∈ a.abortIndexes) (hout : (!(idx.last < lo) && !(hi < idx.first)) = false) :
    files.query lo hi idx = [] := by
  have hout : idx.last < lo ∨ hi < idx.first := by
    simpa only [Bool.and_eq_false_iff, Bool.not_eq_false', decide_eq_true_eq] using hout
  rw [AbortFiles.query]
  rcases hf : files idx with - | f
  · rfl
  · obtain ⟨rfl, htight⟩ := h.file idx hidx f hf
    refine filter_eq_nil_iff.2 fun r hr => ?_
    have hbounds := htight.bounds r hr
    simp only [Bool.and_eq_true, Bool.not_eq_true', decide_eq_false_iff_not]
    rintro ⟨hlast, hfirst⟩
    rcases hout with hout | hout
    · exact hlast (lt_of_le_of_lt hbounds.2 hout)
    · exact hfirst (lt_of_lt_of_le hout hbounds.1)

/-- A query finds the transactions which have an offset in its range. -/
theorem perm_doAbortedTransactions (hlast : a.lastAbortSnapshot.last < start ∨
      files a.lastAbortSnapshot.index = some a.lastAbortSnapshot) (hlo : start ≤ lo) :
    ((a.doAbortedTransactions files lo hi).map (·.offsets)).Perm
      (txs.filter (intersects lo hi)) := by
  -- the snapshot in memory is the one in the file
  have hcached : ∀ idx ∈ a.abortIndexes.filter fun idx => !(idx.last < lo) && !(hi < idx.first),
      idx = a.lastAbortSnapshot.index →
      filterIntersecting a.lastAbortSnapshot.aborted lo hi = files.query lo hi idx := by
    rintro idx hidx rfl
    have hge := (mem_filter.1 hidx).2
    simp only [Bool.and_eq_true, Bool.not_eq_true', decide_eq_false_iff_not] at hge
    rcases hlast with hlast | hlast
    · exact absurd (hlast.trans_le hlo) hge.1
    · rw [AbortFiles.query, hlast]
      rfl
  obtain ⟨old, hold, hp⟩ := h.perm
  have hnone : old.filter (intersects lo hi) = [] := by
    refine filter_eq_nil_iff.2 fun t ht => ?_
    have := hold t ht
    simp only [intersects, Bool.and_eq_true, Bool.not_eq_true', decide_eq_false_iff_not]
    omega
  have hq := hp.filter (intersects lo hi)
  rw [filter_append, filter_append, hnone, append_nil, ← map_filterIntersecting] at hq
  refine Perm.trans ?_ hq
  have hfiles : (a.abortIndexes.flatMap files.offsets).filter (intersects lo hi) =
      (a.abortIndexes.flatMap (files.query lo hi)).map (·.offsets) := by
    rw [filter_flatMap, map_flatMap]
    exact flatMap_congr fun idx _ => (files.map_query lo hi idx).symm
  rw [hfiles, ← map_append]
  refine Perm.map _ ?_
  rw [AbortedTxState.doAbortedTransactions,
    flatMap_congr fun idx hidx => hcached idx (mem_of_mem_filter hidx)
      (by simpa using (mem_filter.1 hidx).2)]
  refine Perm.trans ?_ ((perm_flatMap_filter fun idx hidx => h.query_eq_nil hidx).append_left _)
  have hsplit := (filter_append_perm (· = a.lastAbortSnapshot.index)
    (a.abortIndexes.filter fun idx => !(idx.last < lo) && !(hi < idx.first))).flatMap_right
      (files.query lo hi)
  rw [flatMap_append] at hsplit
  refine Perm.trans ?_ (hsplit.append_left _)
  simp only [← decide_not, ne_eq]
  rw [← append_assoc]
  exact perm_append_comm.append_right _

end Covers

/-! ## Producers and their transactions -/

/-- The transactions that the producers have open are those which are open in the log, each
    producer has the epoch of one of its batches, and has had a transaction only if the log has. -/
structure Tracks (m : OrderedStore fun p : ProducerState => p.id.id) (log : List RecordBatch) :
    Prop where
  openRange : ∀ id, (m.get id).bind (·.openRange) = openTx id log
  epoch : ∀ p ∈ m, ∃ b ∈ log, b.isOf p.id.id ∧ b.pid.epoch = p.id.epoch
  none_of : ∀ p ∈ m, (∀ b ∈ log, b.begins p.id.id = false) → p.transactionState = none

theorem tracks_empty : Tracks .empty [] where
  openRange _ := rfl
  epoch _ h := absurd h not_mem_empty
  none_of _ h := absurd h not_mem_empty

theorem Tracks.transactionState_maybeCreateProducer {s : RmStm}
    (h : Tracks s.producers log) {pid : ProducerIdentity}
    (hno : ∀ b ∈ log, b.begins pid.id = false) :
    (s.maybeCreateProducer pid).transactionState = none := by
  rw [RmStm.maybeCreateProducer]
  rcases hp : s.producers.get pid.id with - | p
  · rfl
  · obtain ⟨hp, hid⟩ := get_eq_some.1 hp
    exact h.none_of p hp fun b hb => hid ▸ hno b hb

theorem Tracks.doApply {s s' : RmStm} (h : Tracks s.producers log) (hs : s.doApply b = some s')
    (hb : b.isFence b.pid.id → ∀ b' ∈ log, b'.isOf b.pid.id → b'.pid.epoch ≤ b.pid.epoch) :
    Tracks s'.producers (log ++ [b]) where
  openRange id := by
    -- the epoch of the producer is that of some batch of the log, which the fence is not below
    have hfence : (s.maybeCreateProducer b.pid).AcceptsFence b := by
      intro hf
      rw [RmStm.maybeCreateProducer]
      rcases hp : s.producers.get b.pid.id with - | p
      · exact le_refl _
      · obtain ⟨hp, hid⟩ := get_eq_some.1 hp
        obtain ⟨b', hb', hof, he⟩ := h.epoch p hp
        rw [Option.getD_some, ← he]
        exact hb hf b' hb' (hid ▸ hof)
    rw [openTx_concat, ← h.openRange]
    exact RmStm.openRange_doApply hs hfence id
  epoch p hp := by
    rcases RmStm.producers_doApply hs with ⟨-, heq⟩ | ⟨hof, q, hq, heq⟩
    · obtain ⟨b', hb', hof, he⟩ := h.epoch p (heq ▸ hp)
      exact ⟨b', mem_append_left _ hb', hof, he⟩
    · rw [heq] at hp
      rcases mem_put.1 hp with rfl | ⟨hp, -⟩
      · obtain ⟨hid, he⟩ := ProducerState.applyBatch_id hq (s.maybeCreateProducer_id b.pid)
        -- the epoch is the old one or that of the batch
        rcases he with he | he
        · rw [RmStm.maybeCreateProducer] at he
          rcases hg : s.producers.get b.pid.id with - | q'
          · rw [hg] at he
            exact ⟨b, by simp, hid ▸ hof, he.symm⟩
          · rw [hg] at he
            obtain ⟨hq', hid'⟩ := get_eq_some.1 hg
            obtain ⟨b', hb', hof', he'⟩ := h.epoch q' hq'
            exact ⟨b', mem_append_left _ hb', by rwa [hid, ← hid'], he'.trans he.symm⟩
        · exact ⟨b, by simp, hid ▸ hof, he.symm⟩
      · obtain ⟨b', hb', hof', he⟩ := h.epoch p hp
        exact ⟨b', mem_append_left _ hb', hof', he⟩
  none_of p hp hno := by
    have hno' : ∀ b' ∈ log, b'.begins p.id.id = false := fun b' hb' =>
      hno b' (mem_append_left _ hb')
    rcases RmStm.producers_doApply hs with ⟨-, heq⟩ | ⟨hof, q, hq, heq⟩
    · exact h.none_of p (heq ▸ hp) hno'
    · rw [heq] at hp
      rcases mem_put.1 hp with rfl | ⟨hp, -⟩
      · have hid := (ProducerState.applyBatch_id hq (s.maybeCreateProducer_id b.pid)).1
        refine ProducerState.transactionState_applyBatch hq hof
          (h.transactionState_maybeCreateProducer fun b' hb' => hid ▸ hno' b' hb') ?_
        exact hid ▸ hno b (by simp)
      · exact h.none_of p hp hno'

theorem mem_foldl_restore
    {m : OrderedStore fun p : ProducerState => p.id.id} (hl : (l.map (·.id.id)).Nodup)
    (hm : ∀ snap ∈ l, m.get snap.id.id = none) :
    p ∈ l.foldl (fun m snap =>
      if (m.get snap.id.id).isSome then m else m.put (ProducerState.fromSnapshot snap)) m ↔
      (∃ snap ∈ l, ProducerState.fromSnapshot snap = p) ∨ p ∈ m := by
  induction l generalizing m with
  | nil => simp
  | cons snap l ih =>
    have hnone := hm snap mem_cons_self
    rw [map_cons, nodup_cons] at hl
    have hput : ∀ snap' ∈ l,
        (m.put (ProducerState.fromSnapshot snap)).get snap'.id.id = none := fun snap' h' => by
      rw [OrderedStore.get_put_of_ne, hm snap' (mem_cons_of_mem _ h')]
      exact fun he => hl.1 (he ▸ mem_map_of_mem h')
    have hne : ∀ q ∈ m, q.id.id ≠ (ProducerState.fromSnapshot snap).id.id :=
      get_eq_none.1 hnone
    rw [foldl_cons, hnone, Option.isSome_none, if_neg (by simp), ih hl.2 hput,
      mem_put, exists_mem_cons_iff]
    constructor
    · rintro (h | rfl | ⟨h, -⟩)
      · exact .inl (.inr h)
      · exact .inl (.inl rfl)
      · exact .inr h
    · rintro ((rfl | h) | h)
      · exact .inr (.inl rfl)
      · exact .inl h
      · exact .inr (.inr ⟨h, hne p h⟩)

/-- The producers that a snapshot restores. -/
theorem mem_restoreProducers (hl : (l.map (·.id.id)).Nodup) :
    p ∈ RmStm.restoreProducers l ↔ ∃ snap ∈ l, ProducerState.fromSnapshot snap = p := by
  rw [RmStm.restoreProducers, mem_foldl_restore hl fun _ _ => get_empty]
  simp

variable {s : RmStm}

namespace RmStm

/-- A producer with a transaction in progress is in the snapshot. -/
theorem exists_mem_snapshotProducers (start : Int) {p : ProducerState} (hp : p ∈ s.producers)
    (h : p.hasTransactionInProgress) :
    ∃ snap ∈ s.snapshotProducers start, snap.id = p.id :=
  ⟨_, mem_filterMap.2 ⟨p, hp, if_pos (by rw [h, Bool.or_true])⟩, rfl⟩

theorem nodup_snapshotProducers (s : RmStm) (start : Int) :
    ((s.snapshotProducers start).map (·.id.id)).Nodup := by
  refine pairwise_map.2 (Pairwise.filterMap _ ?_ s.producers.sorted)
  intro p p' hlt snap hsnap snap' hsnap'
  simp only [Option.ite_none_right_eq_some, Option.some.injEq] at hsnap hsnap'
  obtain ⟨-, rfl⟩ := hsnap
  obtain ⟨-, rfl⟩ := hsnap'
  exact hlt.ne

/-- A producer that is restored from the snapshot. -/
theorem exists_of_mem_restoreProducers {q : ProducerState}
    (hq : q ∈ restoreProducers (s.snapshotProducers start)) :
    ∃ p ∈ s.producers, q.id = p.id ∧ q.transactionState = p.transactionState := by
  obtain ⟨snap, hsnap, rfl⟩ := (mem_restoreProducers (s.nodup_snapshotProducers start)).1 hq
  obtain ⟨p, hp, hsnap⟩ := mem_filterMap.1 hsnap
  simp only [Option.ite_none_right_eq_some, Option.some.injEq] at hsnap
  obtain ⟨-, rfl⟩ := hsnap
  exact ⟨p, hp, rfl, rfl⟩

end RmStm

theorem Tracks.snapshot {s : RmStm} (h : Tracks s.producers log)
    (start : Int) : Tracks (RmStm.restoreProducers (s.snapshotProducers start)) log where
  openRange id := by
    rw [← h.openRange]
    rcases hq : (RmStm.restoreProducers (s.snapshotProducers start)).get id with - | q
    · -- a producer that is not in the snapshot has no transaction
      rcases hp : s.producers.get id with - | p
      · rfl
      · obtain ⟨hmem, rfl⟩ := get_eq_some.1 hp
        rw [Option.bind_none, Option.bind_some, eq_comm, ← Option.not_isSome_iff_eq_none,
          ← ProducerState.hasTransactionInProgress_iff]
        intro hin
        obtain ⟨snap, hsnap, hid⟩ := RmStm.exists_mem_snapshotProducers start hmem hin
        exact get_eq_none.1 hq _
          ((mem_restoreProducers (s.nodup_snapshotProducers start)).2 ⟨snap, hsnap, rfl⟩)
          (congrArg ProducerIdentity.id hid)
    · obtain ⟨hmem, rfl⟩ := get_eq_some.1 hq
      obtain ⟨p, hp, hid, hts⟩ := RmStm.exists_of_mem_restoreProducers hmem
      rw [hid, get_eq_some.2 ⟨hp, rfl⟩]
      simp only [Option.bind_some, ProducerState.openRange, hts]
  epoch q hq := by
    obtain ⟨p, hp, hid, -⟩ := RmStm.exists_of_mem_restoreProducers hq
    exact hid ▸ h.epoch p hp
  none_of q hq := by
    obtain ⟨p, hp, hid, hts⟩ := RmStm.exists_of_mem_restoreProducers hq
    exact hid ▸ hts ▸ h.none_of p hp

/-! ## What the steps do to the index -/

namespace RmStm

variable {s' : RmStm}

/-- The ranges that a batch adds. -/
def abortedBy (s : RmStm) (b : RecordBatch) : List TxRange :=
  if b.isControl b.pid.id .txAbort then
    ((s.maybeCreateProducer b.pid).applyTransactionEnd .txAbort).2.toList
  else []

theorem abortedTxState_doApply (h : s.doApply b = some s') :
    s'.abortedTxState =
      { s.abortedTxState with aborted := s.abortedTxState.aborted ++ s.abortedBy b } := by
  rw [doApply] at h
  rw [abortedBy]
  rcases hk : b.kind with txSeq | crt | - | - <;> simp only [hk] at h
  · cases h
    simp [RecordBatch.isControl, hk, applyFence]
  · cases h
    rcases crt with - | - | - <;> simp [RecordBatch.isControl, hk, applyControl, maybeCreateProducer]
  · rw [applyData] at h
    split at h
    · cases h
      simp [RecordBatch.isControl, hk]
    · obtain ⟨p, -, rfl⟩ := Option.map_eq_some_iff.1 h
      simp [RecordBatch.isControl, hk]
  · cases h
    simp [RecordBatch.isControl, hk]

/-- A marker that ends an open transaction adds the range of it. -/
theorem map_abortedBy {log : List RecordBatch} (h : Tracks s.producers log)
    (hb : b.isEnd b.pid.id →
      (openTx b.pid.id log).isSome ∨ ∀ b' ∈ log, b'.begins b.pid.id = false) :
    (s.abortedBy b).map (·.offsets) =
      if b.isControl b.pid.id .txAbort then (openTx b.pid.id log).toList else [] := by
  rw [abortedBy]
  split
  · rename_i hctl
    have hopen : (s.maybeCreateProducer b.pid).openRange = openTx b.pid.id log := by
      rw [openRange_maybeCreateProducer, openRange, h.openRange]
    rcases hb (RecordBatch.isEnd_of_isControl hctl) with hsome | hno
    · obtain ⟨t, ht⟩ := Option.isSome_iff_exists.1 hsome
      rw [ProducerState.applyTransactionEnd_range (hopen.trans ht) (by simp), ht]
      rfl
    · have hts := h.transactionState_maybeCreateProducer hno
      rw [← hopen, ProducerState.openRange, hts]
      unfold ProducerState.applyTransactionEnd
      rw [hts]
      rfl
  · rfl

variable {offset : Int}

/-- The ranges that are not before the start of the log are in the snapshot or in the files. -/
theorem perm_startLocalSnapshot (s : RmStm) (size : Nat) (start offset : Int) :
    ((s.startLocalSnapshot size start offset).1.abortedTxState.aborted).Perm
        (s.abortedTxState.aborted.filter (start ≤ ·.last)) ∧
      ((s.startLocalSnapshot size start offset).1.abortedTxState.aborted).Perm
        ((s.startLocalSnapshot size start offset).2.stmSnapshot.aborted ++
          (s.startLocalSnapshot size start offset).2.abortedSnapshots.flatMap (·.aborted)) ∧
      ∀ a ∈ (s.startLocalSnapshot size start offset).2.abortedSnapshots, a.Tight := by
  simp only [startLocalSnapshot]
  split
  · obtain ⟨hinv, hall⟩ := Offload.inv_init.foldl_push size
      ((s.abortedTxState.aborted.filter fun range => decide (start ≤ range.last)).insertionSort
        (·.first ≤ ·.first))
    refine ⟨perm_insertionSort _ _, ?_, hinv.tight⟩
    refine Perm.trans (Perm.of_eq hall.symm) ?_
    exact perm_append_comm
  · exact ⟨.refl _, by simp, by simp⟩

end RmStm

/-- The index with the largest offset is one of the indexes, if there is an offset. -/
theorem lastAbortIndex_mem {l : List AbortIndex} (h : 0 < (RmStm.lastAbortIndex l).last) :
    RmStm.lastAbortIndex l ∈ l := by
  have hmem : RmStm.lastAbortIndex l = ⟨offsetMin, -1⟩ ∨ RmStm.lastAbortIndex l ∈ l := by
    rw [RmStm.lastAbortIndex]
    refine foldlRecOn (motive := fun last => last = _ ∨ last ∈ l) l _ (.inl rfl)
      fun last hlast entry hentry => ?_
    split_ifs
    · exact .inr hentry
    · exact hlast
  exact hmem.resolve_left fun heq => by simp [heq] at h

end Redpanda.Cluster
