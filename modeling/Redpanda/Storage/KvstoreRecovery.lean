import Redpanda.Storage.Kvstore

/-!
# Recovery of the key-value store

At any time, the store has a snapshot and at most one segment on disk. The snapshot holds a prefix
of all operations, and the segment either begins where the snapshot ends or is covered by it
(`DiskOk`). So recovery never fails, and nothing that was resolved is lost.

* `Inv`: what holds in every reachable state, by phase.
* `recovers_of_run`: from every reachable state of a store that is not started, whether it has just
  crashed or was recovering, the steps of recovery lead to a store that is started. Its entries are
  those of the operations that had survived before, followed by a prefix of those issued since, with
  all that were resolved.
* `exists_lost_operation`: an operation that was not resolved when the store crashed is lost for
  good, although later ones are not.
* `lookup_of_run`: a running store has the entries of what survived and was resolved.
-/

namespace Redpanda.KeyValueStore

open List Lib

variable {K V : Type*} {T : List (Op K V)} {db : Db K V}

/-! ## Batches -/

/-- The batches hold the operations from the offset `o` on. -/
def Chain (T : List (Op K V)) : Nat → List (KvBatch K V) → Prop
  | _, [] => True
  | o, b :: bs =>
    b.baseOffset = o ∧ b.records ≠ [] ∧ b.records <+: T.drop o ∧
      Chain T (o + b.records.length) bs

/-- The offset after the batches. -/
def endOffset (o : Nat) (bs : List (KvBatch K V)) : Nat :=
  o + (bs.map fun b => b.records.length).sum

variable {o : Nat} {bs : List (KvBatch K V)} {b : KvBatch K V}

theorem endOffset_cons : endOffset o (b :: bs) = endOffset (o + b.records.length) bs := by
  rw [endOffset, endOffset, map_cons, sum_cons, Nat.add_assoc]

theorem endOffset_concat : endOffset o (bs ++ [b]) = endOffset o bs + b.records.length := by
  rw [endOffset, endOffset, map_append, sum_append, map_singleton, sum_singleton, Nat.add_assoc]

theorem le_endOffset_append {l : List (KvBatch K V)} (l' : List (KvBatch K V)) :
    endOffset o l ≤ endOffset o (l ++ l') := by
  rw [endOffset, endOffset, map_append, sum_append]
  exact Nat.add_le_add_left (Nat.le_add_right _ _) o

/-- A part of the batches ends earlier. -/
theorem endOffset_take_le (n : Nat) : endOffset o (bs.take n) ≤ endOffset o bs := by
  have hle := le_endOffset_append (o := o) (l := bs.take n) (bs.drop n)
  rwa [take_append_drop] at hle

/-- What is flushed of a segment is a chain. -/
theorem Chain.take (h : Chain T o bs) (n : Nat) : Chain T o (bs.take n) := by
  induction bs generalizing o n with
  | nil =>
    rw [take_nil]
    exact h
  | cons b bs ih =>
    cases n with
    | zero => trivial
    | succ n => exact ⟨h.1, h.2.1, h.2.2.1, ih h.2.2.2 n⟩

/-- A batch of the next operations. -/
theorem Chain.concat (h : Chain T o bs) (hb : b.baseOffset = endOffset o bs)
    (hne : b.records ≠ []) (hpre : b.records <+: T.drop (endOffset o bs)) :
    Chain T o (bs ++ [b]) := by
  induction bs generalizing o with
  | nil => exact ⟨hb, hne, hpre, trivial⟩
  | cons c bs ih =>
    rw [endOffset_cons] at hb hpre
    exact ⟨h.1, h.2.1, h.2.2.1, ih h.2.2.2 hb hpre⟩

/-- Operations that are issued later do not matter to the batches. -/
theorem Chain.append (h : Chain T o bs) (l : List (Op K V)) : Chain (T ++ l) o bs := by
  induction bs generalizing o with
  | nil => trivial
  | cons b bs ih =>
    refine ⟨h.1, h.2.1, h.2.2.1.trans ?_, ih h.2.2.2⟩
    rw [drop_append]
    exact prefix_append _ _

variable {d : Disk K V} {n : Nat}

namespace Disk

/-- The offset after the snapshot. -/
def snapshotEnd (d : Disk K V) : Nat :=
  d.snapshot.elim 0 (·.lastOffset + 1)

/-- A snapshot ends with the last operation that it holds. -/
theorem snapshotEnd_saveSnapshot (hn : d.snapshotEnd ≤ n) :
    (d.saveSnapshot db n).snapshotEnd = n := by
  rw [saveSnapshot]
  split
  · rename_i h
    rw [h] at hn ⊢
    exact Nat.le_zero.1 hn
  · rename_i h
    exact Nat.succ_pred_eq_of_ne_zero h

theorem segments_saveSnapshot : (d.saveSnapshot db n).segments = d.segments := by
  rw [saveSnapshot]
  split <;> rfl

end Disk

/-! ## Entries -/

section

variable [DecidableEq K]

theorem contents_append (l l' : List (Op K V)) :
    contents (l ++ l') = l'.foldl (fun f op => Function.update f op.1 op.2) (contents l) :=
  foldl_append

/-- The entries in memory are those of the operations. -/
def Represents (db : Db K V) (ops : List (Op K V)) : Prop :=
  ∀ k, db.lookup k = contents ops k

/-- An operation changes the value of its key. -/
theorem lookup_applyOp (db : Db K V) (op : Op K V) (k : K) :
    (applyOp db op).lookup k = Function.update (fun k => db.lookup k) op.1 op.2 k := by
  rw [applyOp, Function.update_apply]
  rcases hop : op.2 with _ | v
  · dsimp only
    split_ifs with hk
    · exact hk ▸ AList.lookup_erase _ _
    · exact AList.lookup_erase_ne hk
  · dsimp only
    split_ifs with hk
    · exact hk ▸ AList.lookup_insert _
    · exact AList.lookup_insert_ne hk

/-- Applying operations to a map that holds the ones before. -/
theorem Represents.foldl (h : Represents db T) (ops : List (Op K V)) :
    Represents (ops.foldl applyOp db) (T ++ ops) := by
  induction ops generalizing db T with
  | nil => rwa [append_nil]
  | cons op ops ih =>
    have hop : Represents (applyOp db op) (T ++ [op]) := by
      intro k
      rw [lookup_applyOp, contents_append, funext h]
      rfl
    rw [foldl_cons]
    have hall := ih hop
    rwa [append_assoc] at hall

theorem represents_empty : Represents (∅ : Db K V) [] :=
  fun _ => rfl

/-- The entries of a snapshot are loaded as they were saved. -/
theorem exists_foldlM_emplace (l : List (Sigma fun _ : K => V)) (db : Db K V)
    (hnodup : l.NodupKeys) (hdisjoint : ∀ e ∈ l, db.lookup e.1 = none) :
    ∃ db', (l.map fun e => (e.1, e.2)).foldlM Disk.emplace db = some db' ∧
      ∀ k, db'.lookup k = (dlookup k l).or (db.lookup k) := by
  induction l generalizing db with
  | nil => exact ⟨db, rfl, fun k => rfl⟩
  | cons e l ih =>
    obtain ⟨key, v⟩ := e
    obtain ⟨hnot, hnodup⟩ := nodupKeys_cons.1 hnodup
    rw [forall_mem_cons] at hdisjoint
    have hemplace : Disk.emplace db (key, v) = some (db.insert key v) := by
      rw [Disk.emplace, hdisjoint.1]
      rfl
    have hne : ∀ e ∈ l, e.1 ≠ key := fun e he heq => hnot (heq ▸ mem_keys_of_mem (s := e) he)
    obtain ⟨db', hfold, hlookup⟩ := ih (db.insert key v) hnodup fun e he =>
      (AList.lookup_insert_ne (hne e he)).trans (hdisjoint.2 e he)
    refine ⟨db', ?_, fun k => ?_⟩
    · rw [map_cons, foldlM_cons, hemplace]
      exact hfold
    · rw [hlookup]
      by_cases hk : k = key
      · rw [hk, dlookup_eq_none.2 hnot, AList.lookup_insert, dlookup_cons_eq]
        rfl
      · rw [AList.lookup_insert_ne hk, dlookup_cons_ne l _ hk]

/-! ## The disk -/

namespace Disk

/-- The snapshot holds the first operations. -/
structure SnapshotOk (T : List (Op K V)) (d : Disk K V) : Prop where
  le : d.snapshotEnd ≤ T.length
  load : ∃ db, d.loadSnapshot = some (db, d.snapshotEnd) ∧ Represents db (T.take d.snapshotEnd)

/-- A snapshot of the entries holds their operations. -/
theorem SnapshotOk.saveSnapshot (hd : d.SnapshotOk T) (hn : d.snapshotEnd ≤ n)
    (hlength : n ≤ T.length) (hdb : Represents db (T.take n)) :
    (d.saveSnapshot db n).SnapshotOk T := by
  refine ⟨?_, ?_⟩
  · rwa [snapshotEnd_saveSnapshot hn]
  · rw [snapshotEnd_saveSnapshot hn, Disk.saveSnapshot]
    split
    · rename_i h
      rw [h] at hn ⊢
      rw [← Nat.le_zero.1 hn]
      exact hd.load
    · rename_i h
      obtain ⟨db', hfold, hlookup⟩ := exists_foldlM_emplace db.entries ∅ db.nodupKeys fun _ _ => rfl
      refine ⟨db', ?_, fun k => ?_⟩
      · rw [loadSnapshot]
        dsimp only
        rw [hfold, Option.map_some, Nat.sub_add_cancel (Nat.pos_of_ne_zero h)]
      · rw [hlookup, ← hdb k]
        exact Option.or_none

/-- Only the operations up to its end matter to a snapshot. -/
theorem SnapshotOk.of_take_eq {T' : List (Op K V)} (hd : d.SnapshotOk T)
    (hle : d.snapshotEnd ≤ T'.length)
    (h : T'.take d.snapshotEnd = T.take d.snapshotEnd) : d.SnapshotOk T' := by
  refine ⟨hle, ?_⟩
  rw [h]
  exact hd.load

end Disk

/-- Operations that come next are applied. -/
theorem Represents.applyNext {l : List (Op K V)} (hdb : Represents db (T.take o))
    (hl : l <+: T.drop o) : Represents (l.foldl applyOp db) (T.take (o + l.length)) := by
  obtain ⟨rest, hrest⟩ := hl
  have htake : T.take (o + l.length) = T.take o ++ l := by
    rw [take_add, ← hrest, take_left]
  rw [htake]
  exact hdb.foldl l

/-- Replaying the batches gives the entries of their operations. -/
theorem Chain.replay (h : Chain T o bs) (ho : o ≤ T.length) (hdb : Represents db (T.take o)) :
    ∃ db', bs.foldlM replayBatch (db, o) = some (db', endOffset o bs) ∧
      endOffset o bs ≤ T.length ∧ Represents db' (T.take (endOffset o bs)) := by
  induction bs generalizing o db with
  | nil => exact ⟨db, rfl, ho, hdb⟩
  | cons b bs ih =>
    obtain ⟨hb, hne, hpre, h⟩ := h
    have hle : o + b.records.length ≤ T.length := by
      have hlength := hpre.length_le
      rw [length_drop] at hlength
      omega
    have hbatch : replayBatch (db, o) b =
        some (b.records.foldl applyOp db, o + b.records.length) := by
      rw [replayBatch, if_pos ⟨hne, hb⟩]
    rw [foldlM_cons, hbatch, endOffset_cons]
    exact ih h hle (hdb.applyNext hpre)

/-! ## What is on disk -/

/-- At most one segment is on disk. It is covered by the snapshot, which ends at `c`, or begins
    where the snapshot ends. The operations before `n` survive a crash. -/
inductive SegmentsOk (T : List (Op K V)) (n c : Nat) : List (SegmentFile K V) → Prop
  | nil : n ≤ c → SegmentsOk T n c []
  | old (f : SegmentFile K V) : f.baseOffset < c → n ≤ c → SegmentsOk T n c [f]
  | current (f : SegmentFile K V) : f.baseOffset = c → Chain T c f.batches →
    n ≤ endOffset c (f.batches.take f.flushed) → SegmentsOk T n c [f]

/-- The snapshot is right, and the segments have all operations from there up to `n`. -/
structure DiskOk (T : List (Op K V)) (n : Nat) (d : Disk K V) : Prop where
  snapshot : d.SnapshotOk T
  segments : SegmentsOk T n d.snapshotEnd d.segments

section

variable (h : DiskOk T n d)

include h

/-- What is not flushed may be lost in part. -/
theorem DiskOk.crash (keep : Nat → Nat) : DiskOk T n (d.crash keep) := by
  refine ⟨{ h.snapshot with }, ?_⟩
  change SegmentsOk T n d.snapshotEnd (d.crash keep).segments
  have hsegments := h.segments
  rw [Disk.crash]
  generalize d.segments = l at hsegments
  cases hsegments with
  | nil hn => exact .nil hn
  | old f hf hn => exact .old _ hf hn
  | current f hf hchain hn =>
    refine .current _ hf (hchain.take _) ?_
    rwa [take_take, Nat.min_eq_left (Nat.le_max_left _ _)]

/-- Recovery cuts the segments after their last whole batch. -/
theorem DiskOk.recoverSegments : DiskOk T n d.recoverSegments := by
  refine ⟨{ h.snapshot with }, ?_⟩
  change SegmentsOk T n d.snapshotEnd d.recoverSegments.segments
  have hsegments := h.segments
  have hfilter : ∀ f : SegmentFile K V, [f].filter (fun f => decide (f.batches ≠ [])) =
      if f.batches = [] then [] else [f] := fun f => by by_cases hf : f.batches = [] <;> simp [hf]
  rw [Disk.recoverSegments]
  generalize d.segments = l at hsegments
  cases hsegments with
  | nil hn => exact .nil hn
  | old f hf hn =>
    rw [hfilter]
    split_ifs with hne
    · exact .nil hn
    · exact .old f hf hn
  | current f hf hchain hn =>
    rw [hfilter]
    split_ifs with hne
    · rw [hne, take_nil] at hn
      exact .nil hn
    · exact .current f hf hchain hn

/-- The segments that are replayed, and those that are not. -/
theorem DiskOk.replaySegments (hdb : Represents db (T.take d.snapshotEnd)) :
    ∃ db' e, replaySegments (db, d.snapshotEnd) d.segments = some (db', e) ∧
      d.snapshotEnd ≤ e ∧ e ≤ T.length ∧ n ≤ e ∧ Represents db' (T.take e) ∧
      ((d.segments.dropWhile fun f => f.baseOffset ≠ d.snapshotEnd) = [] → e = d.snapshotEnd) := by
  have hsegments := h.segments
  have hle := h.snapshot.le
  rw [KeyValueStore.replaySegments]
  generalize d.segments = l at hsegments
  generalize d.snapshotEnd = c at hsegments hdb hle ⊢
  cases hsegments with
  | nil hn => exact ⟨db, c, rfl, le_rfl, hle, hn, hdb, fun _ => rfl⟩
  | old f hf hn =>
    have hdrop : ([f].dropWhile fun f => decide (f.baseOffset ≠ c)) = [] := by simp [hf.ne]
    refine ⟨db, c, ?_, le_rfl, hle, hn, hdb, fun _ => rfl⟩
    dsimp only
    rw [hdrop, if_neg]
    · rfl
    · rintro ⟨-, g, hg, hlt⟩
      cases hg
      exact Nat.lt_asymm hf hlt
  | current f hf hchain hn =>
    have hdrop : ([f].dropWhile fun f => decide (f.baseOffset ≠ c)) = [f] := by simp [hf]
    obtain ⟨db', hreplay, hend, hdb'⟩ := hchain.replay hle hdb
    refine ⟨db', endOffset c f.batches, ?_, Nat.le_add_right _ _, hend,
      hn.trans (endOffset_take_le _), hdb', fun hnil => ?_⟩
    · dsimp only
      rw [hdrop, if_neg (fun h => cons_ne_nil f [] h.1), foldlM_cons, replaySegment, if_pos hf,
        hreplay]
      rfl
    · rw [hdrop] at hnil
      exact nomatch hnil

/-- A segment that the snapshot covers can be removed. -/
theorem DiskOk.removeSegment (hn : n ≤ d.snapshotEnd) {o : Nat} {l : List Nat}
    (hl : d.segments.map SegmentFile.baseOffset = o :: l) :
    DiskOk T n (d.removeSegment o) ∧ (d.removeSegment o).segments = [] ∧ l = [] := by
  have hremoved : (d.removeSegment o).segments = [] ∧ l = [] := by
    have hsegments := h.segments
    have hfilter : ∀ f : SegmentFile K V,
        [f].filter (fun g => decide (g.baseOffset ≠ f.baseOffset)) = [] := fun f => by simp
    rw [Disk.removeSegment]
    generalize d.segments = k at hsegments hl
    cases hsegments with
    | nil => exact nomatch hl
    | old f | current f =>
      obtain ⟨rfl, rfl⟩ := cons.inj hl
      exact ⟨hfilter f, rfl⟩
  refine ⟨⟨{ h.snapshot with }, ?_⟩, hremoved⟩
  rw [hremoved.1]
  exact .nil hn

/-- A snapshot of all that is in the segment covers it. -/
theorem DiskOk.saveSnapshot {e : Nat} (hle : d.snapshotEnd ≤ e)
    (hlength : e ≤ T.length) (hn : n ≤ e) (hdb : Represents db (T.take e)) :
    DiskOk T n (d.saveSnapshot db e) := by
  refine ⟨h.snapshot.saveSnapshot hle hlength hdb, ?_⟩
  rw [Disk.snapshotEnd_saveSnapshot hle, Disk.segments_saveSnapshot]
  have hsegments := h.segments
  generalize d.segments = l at hsegments
  cases hsegments with
  | nil => exact .nil hn
  | old f hf _ => exact .old f (hf.trans_le hle) hn
  | current f hf hchain hn' =>
    rcases hle.lt_or_eq with hlt | heq
    · exact .old f (hf ▸ hlt) hn
    · rw [← heq]
      exact .current f hf hchain hn'

end

/-- Operations that are issued later do not matter. -/
theorem DiskOk.append (hd : DiskOk T n d) (l : List (Op K V)) : DiskOk (T ++ l) n d := by
  have hle := hd.snapshot.le
  refine ⟨hd.snapshot.of_take_eq ?_ (take_append_of_le_length hle), ?_⟩
  · rw [length_append]
    exact Nat.le_add_right_of_le hle
  · have hsegments := hd.segments
    generalize d.segments = k at hsegments
    cases hsegments with
    | nil hn => exact .nil hn
    | old f hf hn => exact .old f hf hn
    | current f hf hchain hn => exact .current f hf (hchain.append l) hn

/-! ## The phases -/

namespace Kvstore

variable (s : Kvstore K V)

/-- All operations that may still be part of the entries. -/
def operations : List (Op K V) :=
  s.history ++ s.issued

/-- How many of them must be. -/
def durable : Nat :=
  s.history.length + s.resolved

/-- The segment `f` is the only one. It holds the operations from the end of the snapshot up to `e`,
    and is flushed up to `n`. -/
structure Written (T : List (Op K V)) (d : Disk K V) (b n e : Nat) : Prop where
  exists_segment : ∃ f, d.segments = [f] ∧ f.baseOffset = b ∧ Chain T b f.batches ∧
    endOffset b f.batches = e ∧ n ≤ endOffset b (f.batches.take f.flushed)
  snapshotEnd : d.snapshotEnd = b

/-- The snapshot holds everything, and there is no segment. -/
structure Saved (d : Disk K V) (e : Nat) : Prop where
  segments : d.segments = []
  snapshotEnd : d.snapshotEnd = e

/-- What the disk of a running store looks like, by the step that the flusher is at. -/
def FlusherOk (T : List (Op K V)) (d : Disk K V) (r : Running K V) : Prop :=
  match r.flusher with
  | .waiting =>
    match r.segment with
    | none => Saved d r.nextOffset
    | some b => Written T d b r.nextOffset r.nextOffset
  | .closing b | .saving b => r.segment = none ∧ Written T d b r.nextOffset r.nextOffset
  | .removing b => r.segment = none ∧ d.snapshotEnd = r.nextOffset ∧
      d.segments.map SegmentFile.baseOffset = [b]
  | .making => r.segment = none ∧ Saved d r.nextOffset
  | .rolled => ∃ b, r.segment = some b ∧ Written T d b r.nextOffset r.nextOffset
  | .appended ops =>
    ∃ b, r.segment = some b ∧ Written T d b r.nextOffset (r.nextOffset + ops.length)
  | .flushed ops =>
    ∃ b, r.segment = some b ∧
      Written T d b (r.nextOffset + ops.length) (r.nextOffset + ops.length)

/-- The operations that the flusher has taken from the queue. -/
def Flusher.taken : Flusher K V → List (Op K V)
  | .appended ops | .flushed ops => ops
  | _ => []

/-- What each phase of recovery has established. -/
def PhaseOk : Phase K V → Prop
  | .down => True
  | .loaded db e => e = s.disk.snapshotEnd ∧ Represents db (s.operations.take e)
  | .removingOld db e old replayed =>
    s.disk.segments.map SegmentFile.baseOffset = old ++ replayed ∧ s.disk.snapshotEnd ≤ e ∧
      e ≤ s.operations.length ∧ s.durable ≤ e ∧ Represents db (s.operations.take e) ∧
      (old ≠ [] → s.durable ≤ s.disk.snapshotEnd)
  | .removingReplayed db e replayed =>
    s.disk.segments.map SegmentFile.baseOffset = replayed ∧ s.disk.snapshotEnd = e ∧
      s.durable ≤ e ∧ Represents db (s.operations.take e)
  | .running r =>
    r.nextOffset = s.durable ∧ Represents r.db (s.operations.take r.nextOffset) ∧
      s.operations.drop r.nextOffset = Flusher.taken r.flusher ++ r.ops ∧
      FlusherOk s.operations s.disk r

/-- What holds of the store after every step: recovery finds all operations that were resolved. -/
structure Inv (s : Kvstore K V) : Prop where
  resolved : s.resolved ≤ s.issued.length
  disk : DiskOk s.operations s.durable s.disk
  phase : PhaseOk s s.phase

variable {s t : Kvstore K V} {e b : Nat} {replayed : List Nat} {r : Running K V}

theorem Inv.phaseOk {p : Phase K V} (hs : s.Inv) (h : s.phase = p) : PhaseOk s p :=
  h ▸ hs.phase

omit [DecidableEq K] in
theorem operations_started : (s.started db e).operations = s.operations.take e :=
  append_nil _

section

variable (hs : s.Inv)

include hs

theorem inv_crash (keep : Nat → Nat) : Inv { s with disk := s.disk.crash keep, phase := .down } :=
  ⟨hs.resolved, hs.disk.crash keep, trivial⟩

/-- The store is started with the entries of the operations up to the end of the snapshot. -/
theorem inv_started (hsegments : s.disk.segments = []) (he : s.disk.snapshotEnd = e)
    (hdb : Represents db (s.operations.take e)) : (s.started db e).Inv := by
  have hle : e ≤ s.operations.length := he ▸ hs.disk.snapshot.le
  have hlength : (s.started db e).durable = e := by
    rw [durable, started, Nat.add_zero]
    exact length_take_of_le hle
  refine ⟨le_rfl, ⟨?_, ?_⟩, ?_⟩
  · rw [operations_started]
    refine hs.disk.snapshot.of_take_eq ?_ ?_
    · rw [length_take_of_le hle]
      exact he.le
    · rw [he, take_take, Nat.min_self]
  · have hnil : (s.started db e).disk.segments = [] := hsegments
    rw [hnil, hlength]
    exact .nil he.ge
  · refine ⟨hlength.symm, ?_, ?_, hsegments, he⟩
    · rw [operations_started, take_take, Nat.min_self]
      exact hdb
    · rw [operations_started]
      exact drop_of_length_le (length_take_of_le hle).le

/-! ## The steps of recovery -/

/-- The snapshot can be loaded. -/
theorem inv_load : ∃ db, s.disk.loadSnapshot = some (db, s.disk.snapshotEnd) ∧ Inv { s with
        disk := s.disk.recoverSegments, phase := .loaded db s.disk.snapshotEnd } := by
  obtain ⟨db, hload, hdb⟩ := hs.disk.snapshot.load
  exact ⟨db, hload, hs.resolved, hs.disk.recoverSegments, rfl, hdb⟩

/-- The segments can be replayed, none of them has a gap. -/
theorem inv_replay (hphase : s.phase = .loaded db e) :
    ∃ db' e', replaySegments (db, e) s.disk.segments = some (db', e') ∧
      Inv { s with
        phase := .removingOld db' e'
          ((s.disk.segments.takeWhile fun f => f.baseOffset ≠ e).map SegmentFile.baseOffset)
          ((s.disk.segments.dropWhile fun f => f.baseOffset ≠ e).map SegmentFile.baseOffset) } := by
  obtain ⟨rfl, hdb⟩ := hs.phaseOk hphase
  obtain ⟨db', e', hreplay, hle, hlength, hdurable, hdb', hnone⟩ := hs.disk.replaySegments hdb
  refine ⟨db', e', hreplay, hs.resolved, hs.disk, ?_, hle, hlength, hdurable, hdb', fun hold => ?_⟩
  · rw [← map_append, takeWhile_append_dropWhile]
  · -- there is only one segment, which is old
    have hsegments := hs.disk.segments
    change s.durable ≤ s.disk.snapshotEnd
    generalize s.disk.segments = l at hsegments hold
    cases hsegments with
    | nil hn | old f _ hn => exact hn
    | current f hf =>
      refine absurd ?_ hold
      simp [hf]

/-- Segments that are below the snapshot are removed first. -/
theorem inv_removeOld {old : List Nat} (hphase : s.phase = .removingOld db e (b :: old) replayed) :
    Inv { s with
      disk := s.disk.removeSegment b, phase := .removingOld db e old replayed } := by
  obtain ⟨hsegments, hle, hlength, hdurable, hdb, hold⟩ := hs.phaseOk hphase
  obtain ⟨hdisk, hnil, hrest⟩ :=
    hs.disk.removeSegment (hold (cons_ne_nil b old)) (hsegments.trans (cons_append ..))
  refine ⟨hs.resolved, hdisk, ?_, hle, hlength, hdurable, hdb, fun _ => hold (cons_ne_nil b old)⟩
  rw [hrest]
  exact congrArg (map SegmentFile.baseOffset) hnil

/-- What was replayed is in the snapshot before its segments go. -/
theorem inv_saveReplayed (hphase : s.phase = .removingOld db e [] replayed) : Inv { s with
      disk := s.disk.saveSnapshot db e, phase := .removingReplayed db e replayed } := by
  obtain ⟨hsegments, hle, hlength, hdurable, hdb, -⟩ := hs.phaseOk hphase
  refine ⟨hs.resolved, hs.disk.saveSnapshot hle hlength hdurable hdb, ?_,
    Disk.snapshotEnd_saveSnapshot hle, hdurable, hdb⟩
  dsimp only
  rw [Disk.segments_saveSnapshot]
  exact hsegments

/-- The snapshot has what the segment had. -/
theorem inv_removeReplayed (hphase : s.phase = .removingReplayed db e (b :: replayed)) :
    Inv { s with
      disk := s.disk.removeSegment b, phase := .removingReplayed db e replayed } := by
  obtain ⟨hsegments, hend, hdurable, hdb⟩ := hs.phaseOk hphase
  obtain ⟨hdisk, hnil, hrest⟩ := hs.disk.removeSegment (hdurable.trans hend.ge) hsegments
  refine ⟨hs.resolved, hdisk, ?_, hend, hdurable, hdb⟩
  rw [hrest]
  exact congrArg (map SegmentFile.baseOffset) hnil

end

/-! ## The steps of the flusher -/

/-- A segment that follows the snapshot. -/
theorem Written.diskOk (hd : d.SnapshotOk T) (hw : Written T d b n e) : DiskOk T n d := by
  obtain ⟨f, hf, hbase, hchain, -, hn⟩ := hw.exists_segment
  refine ⟨hd, ?_⟩
  rw [hf, hw.snapshotEnd]
  exact .current f hbase hchain hn

section

omit [DecidableEq K]

/-- A step on the only segment. -/
theorem modifySegment_segments {f : SegmentFile K V} (hf : d.segments = [f])
    (g : SegmentFile K V → SegmentFile K V) :
    (d.modifySegment f.baseOffset g).segments = [g f] := by
  rw [Disk.modifySegment, hf, map_singleton, if_pos rfl]

theorem Saved.makeSegment (h : Saved d e) : Written T (d.makeSegment e) e e e := by
  refine ⟨⟨{ baseOffset := e }, ?_, rfl, trivial, rfl, le_rfl⟩, h.snapshotEnd⟩
  rw [Disk.makeSegment, h.segments]
  rfl

variable (hw : Written T d b n e)

include hw

theorem Written.mono {m : Nat} (hm : m ≤ n) : Written T d b m e := by
  obtain ⟨f, hf, hbase, hchain, he, hn⟩ := hw.exists_segment
  exact ⟨⟨f, hf, hbase, hchain, he, hm.trans hn⟩, hw.snapshotEnd⟩

theorem Written.snapshotEnd_le : d.snapshotEnd ≤ e := by
  obtain ⟨f, -, -, -, hend, -⟩ := hw.exists_segment
  rw [hw.snapshotEnd, ← hend]
  exact Nat.le_add_right _ _

theorem Written.segments_eq : d.segments.map SegmentFile.baseOffset = [b] := by
  obtain ⟨f, hf, hbase, -⟩ := hw.exists_segment
  rw [hf, map_singleton, hbase]

/-- All of the segment is flushed. -/
theorem Written.flush :
    Written T (d.modifySegment b fun f => { f with flushed := f.batches.length }) b e e := by
  obtain ⟨f, hf, rfl, hchain, he, -⟩ := hw.exists_segment
  refine ⟨⟨_, modifySegment_segments hf _, rfl, hchain, he, ?_⟩, hw.snapshotEnd⟩
  dsimp only
  rw [take_length, he]

/-- The next operations are written to the segment. -/
theorem Written.concat {ops : List (Op K V)} (hne : ops ≠ []) (hpre : ops <+: T.drop e) :
    Written T (d.modifySegment b fun f => { f with batches := f.batches ++ [⟨e, ops⟩] }) b n
      (e + ops.length) := by
  obtain ⟨f, hf, rfl, hchain, rfl, hn⟩ := hw.exists_segment
  refine ⟨⟨_, modifySegment_segments hf _, rfl, hchain.concat rfl hne hpre, endOffset_concat,
    hn.trans ?_⟩, hw.snapshotEnd⟩
  dsimp only
  rw [take_append]
  exact le_endOffset_append _

theorem Written.append (l : List (Op K V)) : Written (T ++ l) d b n e := by
  obtain ⟨f, hf, hbase, hchain, he, hn⟩ := hw.exists_segment
  exact ⟨⟨f, hf, hbase, hchain.append l, he, hn⟩, hw.snapshotEnd⟩

end

variable (cfg : Config K V)

section

variable {segment : Option Nat} {ops : List (Op K V)}

/-- The snapshot holds all that the segment does, before the segment is removed. -/
theorem inv_flush_saving (hs : s.Inv)
    (hphase : s.phase = .running ⟨db, e, segment, ops, .saving b⟩) :
    (s.flush cfg ⟨db, e, segment, ops, .saving b⟩).Inv := by
  obtain ⟨hnext, hdb, hdrop, hsegment, hw⟩ := hs.phaseOk hphase
  dsimp only at hnext hdb
  have hb := hw.snapshotEnd_le
  have hle : e ≤ s.operations.length := by
    have hlength : s.operations.length = s.history.length + s.issued.length := length_append
    have hresolved := hs.resolved
    rw [hnext, durable]
    omega
  refine ⟨hs.resolved, hs.disk.saveSnapshot hb hle hnext.ge hdb, hnext, hdb, hdrop, hsegment,
    Disk.snapshotEnd_saveSnapshot hb, ?_⟩
  rw [flush, Disk.segments_saveSnapshot]
  exact hw.segments_eq

/-- A new segment begins where the snapshot ends. -/
theorem inv_flush_making (hs : s.Inv) (hphase : s.phase = .running ⟨db, e, segment, ops, .making⟩) :
    (s.flush cfg ⟨db, e, segment, ops, .making⟩).Inv := by
  have hsnapshot := hs.disk.snapshot
  obtain ⟨hnext, hdb, hdrop, -, hsaved⟩ := hs.phaseOk hphase
  dsimp only at hnext
  have hw : Written s.operations (s.disk.makeSegment e) e e e := hsaved.makeSegment
  refine ⟨hs.resolved, ?_, hnext, hdb, hdrop, e, rfl, hw⟩
  exact hnext ▸ hw.diskOk { hsnapshot with }

/-- The operations that are queued are appended as one batch. -/
theorem inv_flush_rolled (hs : s.Inv) (hphase : s.phase = .running ⟨db, e, segment, ops, .rolled⟩) :
    (s.flush cfg ⟨db, e, segment, ops, .rolled⟩).Inv := by
  have hsnapshot := hs.disk.snapshot
  obtain ⟨hnext, hdb, hdrop, b, rfl : segment = some b, hw⟩ := hs.phaseOk hphase
  dsimp only at hnext hdrop
  cases ops with
  | nil => exact ⟨hs.resolved, hs.disk, hnext, hdb, hdrop, hw⟩
  | cons op ops =>
    have hpre : op :: ops <+: s.operations.drop e := by
      rw [hdrop]
      exact prefix_rfl
    have hw' := hw.concat (cons_ne_nil op ops) hpre
    refine ⟨hs.resolved, ?_, hnext, hdb, ?_, b, rfl, hw'⟩
    · exact hnext ▸ hw'.diskOk { hsnapshot with }
    · exact hdrop.trans (append_nil _).symm

/-- The operations that were flushed are applied and resolved. -/
theorem inv_flush_flushed (hs : s.Inv) {taken : List (Op K V)}
    (hphase : s.phase = .running ⟨db, e, segment, ops, .flushed taken⟩) :
    (s.flush cfg ⟨db, e, segment, ops, .flushed taken⟩).Inv := by
  have hsnapshot := hs.disk.snapshot
  have hlength : s.operations.length = s.history.length + s.issued.length := length_append
  obtain ⟨hnext, hdb, hdrop, b, rfl : segment = some b, hw⟩ := hs.phaseOk hphase
  dsimp only at hnext hdb hdrop
  have htaken : s.operations.length - e = taken.length + ops.length := by
    have hlength' := congrArg length hdrop
    rwa [length_drop, length_append] at hlength'
  have hdurable : e + taken.length = s.history.length + (s.resolved + taken.length) := by
    rw [hnext, durable, Nat.add_assoc]
  have hdisk : DiskOk s.operations (s.history.length + (s.resolved + taken.length)) s.disk :=
    hdurable ▸ hw.diskOk hsnapshot
  refine ⟨?_, hdisk, hdurable, hdb.applyNext (hdrop ▸ prefix_append _ _), ?_, hw⟩
  · change s.resolved + taken.length ≤ s.issued.length
    have hresolved := hs.resolved
    rw [hnext, hlength, durable] at htaken
    omega
  · change s.operations.drop (e + taken.length) = ops
    rw [← drop_drop, hdrop]
    exact drop_left

end

/-- Every step of the flusher keeps the invariant: a crash after it loses nothing. -/
theorem inv_flush (hs : s.Inv) (hphase : s.phase = .running r) : (s.flush cfg r).Inv := by
  have hsnapshot := hs.disk.snapshot
  rcases r with ⟨db, e, segment, ops, flusher⟩
  obtain ⟨hnext, hdb, hdrop, hflusher⟩ := hs.phaseOk hphase
  dsimp only at hnext hdb hdrop
  cases flusher with
  | waiting =>
    -- the flusher decides whether a segment is to be made or closed
    rw [flush]
    cases segment with
    | none => exact ⟨hs.resolved, hs.disk, hnext, hdb, hdrop, rfl, hflusher⟩
    | some b =>
      dsimp only
      split
      · exact ⟨hs.resolved, hs.disk, hnext, hdb, hdrop, rfl, hflusher⟩
      · exact ⟨hs.resolved, hs.disk, hnext, hdb, hdrop, b, rfl, hflusher⟩
  | closing b =>
    obtain ⟨hsegment, hw⟩ := hflusher
    have hw' := hw.flush
    refine ⟨hs.resolved, ?_, hnext, hdb, hdrop, hsegment, hw'⟩
    exact hnext ▸ hw'.diskOk { hsnapshot with }
  | saving b => exact inv_flush_saving cfg hs hphase
  | removing b =>
    obtain ⟨hsegment, hend, hsegments⟩ := hflusher
    obtain ⟨hdisk, hnil, -⟩ := hs.disk.removeSegment (hnext ▸ hend.ge) hsegments
    exact ⟨hs.resolved, hdisk, hnext, hdb, hdrop, hsegment, hnil, hend⟩
  | making => exact inv_flush_making cfg hs hphase
  | rolled => exact inv_flush_rolled cfg hs hphase
  | appended taken =>
    -- the batch is flushed, its operations are not applied yet
    obtain ⟨b, rfl : segment = some b, hw⟩ := hflusher
    have hw' := hw.flush
    refine ⟨hs.resolved, ?_, hnext, hdb, hdrop, b, rfl, hw'⟩
    exact hnext ▸ (hw'.mono (Nat.le_add_right _ _)).diskOk { hsnapshot with }
  | flushed taken => exact inv_flush_flushed cfg hs hphase

/-! ## Runs -/

omit [DecidableEq K] in
/-- The flusher does not see operations that are issued meanwhile. -/
theorem FlusherOk.append (h : FlusherOk T d r) (l : List (Op K V)) : FlusherOk (T ++ l) d r := by
  rcases r with ⟨db, e, segment, ops, flusher⟩
  cases flusher with
  | waiting =>
    cases segment with
    | none => exact h
    | some b => exact Written.append h l
  | closing b | saving b => exact ⟨h.1, h.2.append l⟩
  | removing b | making => exact h
  | rolled | appended taken | flushed taken =>
    obtain ⟨b, hb, hw⟩ := h
    exact ⟨b, hb, hw.append l⟩

/-- An operation is queued. -/
theorem inv_put (hs : s.Inv) (hphase : s.phase = .running r) (op : Op K V) :
    Inv { s with
      phase := .running { r with ops := r.ops ++ [op] }, issued := s.issued ++ [op] } := by
  obtain ⟨hnext, hdb, hdrop, hflusher⟩ := hs.phaseOk hphase
  have hle : r.nextOffset ≤ s.operations.length := by
    rw [hnext, durable, operations, length_append]
    exact Nat.add_le_add_left hs.resolved _
  have hops : s.history ++ (s.issued ++ [op]) = s.operations ++ [op] := (append_assoc ..).symm
  refine ⟨?_, ?_, hnext, ?_⟩
  · rw [length_append]
    exact Nat.le_add_right_of_le hs.resolved
  · rw [operations, hops]
    exact hs.disk.append [op]
  · rw [operations, hops, take_append_of_le_length hle, drop_append_of_le_length hle, hdrop,
      append_assoc]
    exact ⟨hdb, rfl, hflusher.append [op]⟩

/-- A bound on the steps of recovery that are left. -/
def rank (s : Kvstore K V) : Nat :=
  match s.phase with
  | .down => 4 + s.disk.segments.length
  | .loaded _ _ => 3 + s.disk.segments.length
  | .removingOld _ _ old replayed => 2 + old.length + replayed.length
  | .removingReplayed _ _ replayed => 1 + replayed.length
  | .running _ => 0

/-- Recovery goes on with the same operations, or the store is started with those that have
    survived. -/
inductive Recovery (s : Kvstore K V) : Kvstore K V → Prop
  | proceed (d : Disk K V) (phase : Phase K V) :
    rank { s with disk := d, phase := phase } < s.rank → (∀ r, phase ≠ .running r) →
    Recovery s { s with disk := d, phase := phase }
  | started (db : Db K V) (e : Nat) : s.durable ≤ e → e ≤ s.operations.length →
    Recovery s (s.started db e)

/-- Recovery can always take its next step. -/
theorem exists_recovery (hs : s.Inv) (hnot : ∀ r, s.phase ≠ .running r) :
    ∃ t, s.proceed cfg = some t ∧ t.Inv ∧ Recovery s t := by
  rcases hphase : s.phase with _ | ⟨db, e⟩ | ⟨db, e, _ | ⟨b, old⟩, replayed⟩ |
    ⟨db, e, _ | ⟨b, replayed⟩⟩ | r
  -- empty segments are removed, so there are at most as many to replay
  · obtain ⟨db, hload, hinv⟩ := inv_load hs
    refine ⟨_, ?_, hinv, .proceed _ _ ?_ nofun⟩
    · rw [proceed, hphase]
      dsimp only
      rw [hload]
    · rw [rank, rank, hphase]
      have hle : s.disk.recoverSegments.segments.length ≤ s.disk.segments.length :=
        length_filter_le _ _
      dsimp only
      omega
  · obtain ⟨he, hdb⟩ := hs.phaseOk hphase
    -- with no segment to replay the store is started from the snapshot alone
    rcases hsegments : s.disk.segments with _ | ⟨f, l⟩
    · refine ⟨_, ?_, inv_started hs hsegments he.symm hdb, .started db e ?_ ?_⟩
      · rw [proceed, hphase]
        dsimp only
        rw [hsegments]
      · have hdisk := hs.disk.segments
        rw [hsegments, ← he] at hdisk
        cases hdisk with
        | nil hn => exact hn
      · exact he ▸ hs.disk.snapshot.le
    · obtain ⟨db', e', hreplay, hinv⟩ := inv_replay hs hphase
      refine ⟨_, ?_, hinv, .proceed _ _ ?_ nofun⟩
      · rw [proceed, hphase]
        dsimp only
        rw [hreplay, hsegments]
      -- each segment is either an old one or one to replay
      · have hlength := congrArg length (takeWhile_append_dropWhile
          (p := fun f => decide (f.baseOffset ≠ e)) (l := s.disk.segments))
        rw [length_append] at hlength
        rw [rank, rank, hphase]
        dsimp only
        rw [length_map, length_map]
        omega
  · refine ⟨_, ?_, inv_saveReplayed hs hphase, .proceed _ _ ?_ nofun⟩
    · rw [proceed, hphase]
    · simp only [rank, hphase, length_nil]
      omega
  · refine ⟨_, ?_, inv_removeOld hs hphase, .proceed _ _ ?_ nofun⟩
    · rw [proceed, hphase]
    · simp only [rank, hphase, length_cons]
      omega
  · obtain ⟨hsegments, hend, hdurable, hdb⟩ := hs.phaseOk hphase
    refine ⟨_, ?_, inv_started hs (map_eq_nil_iff.1 hsegments) hend hdb,
      .started db e hdurable (hend ▸ hs.disk.snapshot.le)⟩
    rw [proceed, hphase]
  · refine ⟨_, ?_, inv_removeReplayed hs hphase, .proceed _ _ ?_ nofun⟩
    · rw [proceed, hphase]
    · simp only [rank, hphase, length_cons]
      omega
  · exact absurd hphase (hnot r)

/-- Every step keeps the invariant. -/
theorem inv_of_step {cfg : Config K V} {a : Action K V} (hs : s.Inv) (h : Step cfg s a t) :
    t.Inv := by
  cases a with
  | put op =>
    rw [Step, next] at h
    split at h
    · rename_i r hphase
      cases h
      exact inv_put hs hphase op
    · exact nomatch h
  | proceed =>
    change s.proceed cfg = some t at h
    by_cases hrunning : ∃ r, s.phase = .running r
    · obtain ⟨r, hphase⟩ := hrunning
      rw [proceed, hphase] at h
      cases h
      exact inv_flush cfg hs hphase
    · obtain ⟨t', ht', hinv, -⟩ := exists_recovery cfg hs fun r hr => hrunning ⟨r, hr⟩
      exact Option.some.inj (ht'.symm.trans h) ▸ hinv
  | crash keep =>
    cases h
    exact inv_crash hs keep

theorem inv_empty : Inv ({} : Kvstore K V) :=
  ⟨le_rfl, ⟨⟨le_rfl, ∅, rfl, represents_empty⟩, .nil le_rfl⟩, trivial⟩

/-- The store has been recovered, with all that was resolved. -/
structure Recovered (s t : Kvstore K V) (r : Running K V) : Prop where
  phase : t.phase = .running r
  history : ∃ n, s.resolved ≤ n ∧ n ≤ s.issued.length ∧ t.history = s.history ++ s.issued.take n
  lookup : ∀ k, r.db.lookup k = contents t.history k

/-- A store that starts has a prefix of the operations, with all that were resolved. -/
theorem recovered_started (hinv : (s.started db e).Inv) (hle : s.durable ≤ e)
    (hlength : e ≤ s.operations.length) :
    Recovered s (s.started db e) { db := db, nextOffset := e } := by
  obtain ⟨hnext, hdb, -, -⟩ := hinv.phase
  rw [operations, length_append] at hlength
  rw [durable] at hle
  refine ⟨rfl, ⟨e - s.history.length, by omega, by omega, ?_⟩, fun k => ?_⟩
  · change (s.history ++ s.issued).take e = _
    rw [take_append, take_of_length_le (by omega)]
  · rw [operations_started, take_take, Nat.min_self] at hdb
    exact hdb k

/-- From every phase of recovery the store gets to run. -/
theorem exists_recovered (hs : s.Inv) (hnot : ∀ r, s.phase ≠ .running r) :
    ∃ n t r, Run (Step cfg) s (replicate n .proceed) t ∧ Recovered s t r := by
  induction hn : s.rank using Nat.strongRecOn generalizing s with
  | ind n ih =>
    obtain ⟨t, ht, hinv, hrec⟩ := exists_recovery cfg hs hnot
    cases hrec with
    | proceed d phase hrank hphase =>
      obtain ⟨m, u, r, hrun, hu⟩ := ih _ (hn ▸ hrank) hinv hphase rfl
      exact ⟨m + 1, u, r, .cons ht hrun, hu.phase, hu.history, hu.lookup⟩
    | started db e hle hlength =>
      exact ⟨1, _, _, .single ht, recovered_started hinv hle hlength⟩

/-- A store that is not started, wherever it crashed, always recovers. Its entries are then those of
    the operations that had survived before, followed by a prefix of those issued since the last
    recovery. All operations that were resolved are in this prefix. -/
theorem recovers_of_run {cfg : Config K V} {as : List (Action K V)}
    (hrun : Run (Step cfg) {} as s) (hnot : ∀ r, s.phase ≠ .running r) :
    ∃ n t r, Run (Step cfg) s (replicate n .proceed) t ∧ t.phase = .running r ∧
      (∃ m, s.resolved ≤ m ∧ m ≤ s.issued.length ∧ t.history = s.history ++ s.issued.take m) ∧
      ∀ k, r.db.lookup k = contents t.history k := by
  have hs : s.Inv := hrun.invariant (P := Inv) inv_of_step inv_empty
  obtain ⟨n, t, r, hrun', ht⟩ := exists_recovered cfg hs hnot
  exact ⟨n, t, r, hrun', ht.phase, ht.history, ht.lookup⟩

/-- A store of two keys, whose batches all have the same size. -/
def smallConfig : Config Bool Nat where
  batchSize _ := 1
  maxSegmentSize := 1

/-- The store is started, and a put is resolved. Another one is written when the store crashes. -/
def unflushedRun : List (Action Bool Nat) :=
  [.proceed, .proceed, .put (false, some 1)] ++ replicate 5 .proceed ++
    [.put (true, some 2), .proceed, .proceed, .crash fun _ => 1]

theorem recovers_of_run_unflushedRun :
    ∃ s, Run (Step smallConfig) {} unflushedRun s ∧ s.resolved = 1 ∧
      ∃ n t r, Run (Step smallConfig) s (replicate n .proceed) t ∧ t.phase = .running r ∧
        (∃ m, s.resolved ≤ m ∧ m ≤ s.issued.length ∧ t.history = s.history ++ s.issued.take m) ∧
        ∀ k, r.db.lookup k = contents t.history k := by
  have hrun : ∃ s, Run (Step smallConfig) {} unflushedRun s ∧ s.resolved = 1 ∧ s.phase = .down :=
    ⟨_, Run.of_foldlM rfl, rfl, rfl⟩
  obtain ⟨s, hrun, hresolved, hphase⟩ := hrun
  refine ⟨s, hrun, hresolved, recovers_of_run hrun fun r hr => ?_⟩
  simp [hphase] at hr

/-- The store crashes with a put in its queue. After it was recovered, another put is resolved. -/
def lostRun : List (Action Bool Nat) :=
  [.proceed, .proceed, .put (false, some 1), .crash fun _ => 0, .proceed, .proceed,
    .put (true, some 2)] ++ replicate 5 .proceed

/-- The first put is lost although the second one is not: after a crash and recovery, the entries
    are not those of any prefix of the two puts that contains the second one. -/
theorem exists_lost_operation :
    lostRun.filterMap Action.op? = [(false, some 1), (true, some 2)] ∧
      ∃ s t u r n, Run (Step smallConfig) {} lostRun s ∧ s.issued = [(true, some 2)] ∧
        s.resolved = 1 ∧ Step smallConfig s (.crash fun _ => 0) t ∧
        Run (Step smallConfig) t (replicate n .proceed) u ∧ u.phase = .running r ∧
        ∀ m, (true, some 2) ∈ (lostRun.filterMap Action.op?).take m →
          r.db.lookup false ≠ contents ((lostRun.filterMap Action.op?).take m) false := by
  refine ⟨rfl, ?_⟩
  have hrun : ∃ s t u r, Run (Step smallConfig) {} lostRun s ∧ s.issued = [(true, some 2)] ∧
      s.resolved = 1 ∧ Step smallConfig s (.crash fun _ => 0) t ∧
      Run (Step smallConfig) t (replicate 5 .proceed) u ∧ u.phase = .running r ∧
      r.db.lookup false = none :=
    ⟨_, _, _, _, Run.of_foldlM rfl, rfl, rfl, rfl, Run.of_foldlM rfl, rfl, rfl⟩
  obtain ⟨s, t, u, r, hs, hissued, hresolved, ht, hu, hr, hlookup⟩ := hrun
  refine ⟨s, t, u, r, 5, hs, hissued, hresolved, ht, hu, hr, fun m hm => ?_⟩
  have hops : lostRun.filterMap Action.op? = [(false, some 1), (true, some 2)] := rfl
  rw [hops] at hm ⊢
  rw [hlookup]
  -- a prefix with the second put has both
  rcases m with _ | _ | m
  · simp at hm
  · simp at hm
  · rw [take_of_length_le (Nat.le_add_left 2 m)]
    exact nofun

/-- The entries of a running store are those of the operations that had survived when it was
    recovered, followed by those that were resolved since, no more and no less. -/
theorem lookup_of_run {cfg : Config K V} {as : List (Action K V)}
    (hrun : Run (Step cfg) {} as s) (hphase : s.phase = .running r) (k : K) :
    r.db.lookup k = contents (s.history ++ s.issued.take s.resolved) k := by
  have hs : s.Inv := hrun.invariant (P := Inv) inv_of_step inv_empty
  obtain ⟨hnext, hdb, -⟩ := hs.phaseOk hphase
  rw [hdb k, hnext, operations, durable, take_append, take_of_length_le (Nat.le_add_right _ _),
    Nat.add_sub_cancel_left]

theorem lookup_of_run_lostRun : ∃ s r, Run (Step smallConfig) {} lostRun s ∧
    s.phase = .running r ∧ ∀ k, r.db.lookup k = contents (s.history ++ s.issued.take 1) k :=
  have hrun : Run (Step smallConfig) {} lostRun _ := Run.of_foldlM rfl
  ⟨_, _, hrun, rfl, lookup_of_run hrun rfl⟩

end Kvstore

end

end Redpanda.KeyValueStore
