import Redpanda.Cluster.EndMarkers

/-!
# The last stable offset

The last stable offset which a replica returns is not above the first offset of a transaction whose
end marker the replica has not applied (`TxPartition.lso_le_of_run`), and it does not decrease
while the replica stays in its term.

A replica answers from what it has applied, and a leader may look beyond that, up to the high
watermark. The invariant (`TxReplica.LsoInv`) says why both are right:

* the transactions which the state machine has open are those of the log it has applied, and the
  list of active producers has them in the order of their first offsets (`InOrder`), so the head of
  the list is the first of all;
* an offset that was once returned stays `Stable`. Later transactions begin at the end of the log,
  and a leader without an active transaction has applied every fence of the log, because a fence
  that is not applied yet has its operation hold the lock.

All of that needs that a replica does not ignore a fence (`TxPartition.AcceptsFences`). The state
machine does so for a fence with an epoch below the one it knows the producer with. It creates
producers when a request arrives, so the epoch may be one that no batch of the log has, and
`TxPartition.exists_run_lt_lso` is a run in which a replica then returns an offset above the fence.
-/

namespace Redpanda.Cluster

open Lib List
open RecordBatch (isEnd_iff isFence_iff isOf_of_ne isTxData_iff)

/-! ## Offsets -/

/-- Every batch starts where the one before ended. -/
def Contiguous (log : List RecordBatch) : Prop :=
  ∀ (i : Nat) (h : i < log.length),
    log[i].header.baseOffset = nextOffset (log.take i) ∧ 0 ≤ log[i].header.lastOffsetDelta

variable {log : List RecordBatch} {b : RecordBatch}

section

@[simp]
theorem nextOffset_concat (log : List RecordBatch) (b : RecordBatch) :
    nextOffset (log ++ [b]) = b.header.lastOffset + 1 := by
  simp [nextOffset]

theorem contiguous_nil : Contiguous [] := nofun

variable (h : Contiguous log)

include h

theorem Contiguous.concat (hb : b.header.baseOffset = nextOffset log)
    (hle : 0 ≤ b.header.lastOffsetDelta) : Contiguous (log ++ [b]) := by
  intro i hi
  rcases Nat.lt_succ_iff_lt_or_eq.1 (by simpa using hi : i < log.length + 1) with hlt | rfl
  · simpa only [getElem_append_left hlt, take_append_of_le_length hlt.le] using h i hlt
  · simpa using ⟨hb, hle⟩

theorem Contiguous.take (k : Nat) : Contiguous (log.take k) := by
  intro i hi
  have hi' : i < log.length := lt_of_lt_of_le hi (by simp)
  have hk : i ≤ k := by simp at hi; omega
  simpa only [getElem_take, take_take, min_eq_left hk] using h i hi'

/-- A batch ends before the next offset. -/
theorem Contiguous.nextOffset_succ {k : Nat} (hk : k < log.length) :
    log[k].header.baseOffset < nextOffset (log.take (k + 1)) := by
  rw [take_add_one, getElem?_eq_getElem hk, Option.toList_some, nextOffset_concat,
    RecordBatchHeader.lastOffset]
  have := (h k hk).2
  omega

/-- A longer part of the log ends later. -/
theorem Contiguous.nextOffset_mono {j k : Nat} (hjk : j ≤ k) :
    nextOffset (log.take j) ≤ nextOffset (log.take k) := by
  induction k, hjk using Nat.le_induction with
  | base => exact le_rfl
  | succ k _ ih =>
    rcases lt_or_ge k log.length with hk | hk
    · have hlt := h.nextOffset_succ hk
      rw [(h k hk).1] at hlt
      exact ih.trans hlt.le
    · rw [take_of_length_le hk] at ih
      rwa [take_of_length_le (hk.trans (Nat.le_succ k))]

theorem Contiguous.nextOffset_nonneg (k : Nat) : 0 ≤ nextOffset (log.take k) := by
  simpa [nextOffset] using h.nextOffset_mono (Nat.zero_le k)

/-- A batch begins where the part of the log before it ends. -/
theorem Contiguous.baseOffset_eq {j : Nat} (hb : log[j]? = some b) :
    b.header.baseOffset = nextOffset (log.take j) := by
  obtain ⟨hj, rfl⟩ := List.getElem?_eq_some_iff.1 hb
  exact (h j hj).1

end

/-! ## The first offsets of open transactions -/

/-- Where the open transaction of a producer begins. -/
def firstOpen (log : List RecordBatch) (id : Int) : Option Int := (openTx id log).map (·.1)

variable {id : Int}

section

/-- What one more batch does to the first offset of a transaction. -/
theorem firstOpen_concat (log : List RecordBatch) (b : RecordBatch) (id : Int) :
    firstOpen (log ++ [b]) id =
      if b.isFence id then some b.header.baseOffset
      else if b.isEnd id then none
      else if b.isTxData id then some ((firstOpen log id).getD b.header.baseOffset)
      else firstOpen log id := by
  rw [firstOpen, openTx_concat, openStep]
  split_ifs <;> rfl

/-- A transaction is open if it has a first offset. -/
theorem isSome_firstOpen (log : List RecordBatch) (id : Int) :
    (firstOpen log id).isSome = isOpen id log := by
  rw [firstOpen, Option.isSome_map, isOpen]

/-- Transactions begin in the log. -/
theorem Contiguous.firstOpen_lt (h : Contiguous log) {f : Int} (hf : firstOpen log id = some f) :
    f < nextOffset log := by
  induction log using reverseRecOn generalizing f with
  | nil => exact absurd hf (by simp [firstOpen])
  | append_singleton log b ih =>
    have hlen : log.length < (log ++ [b]).length := by simp
    have hlog := h.take log.length
    rw [take_left' rfl] at hlog
    have hb := h log.length hlen
    rw [getElem_concat_length rfl, take_left' rfl] at hb
    have hnext : b.header.baseOffset < nextOffset (log ++ [b]) := by
      rw [nextOffset_concat, RecordBatchHeader.lastOffset]
      omega
    -- what was open before began before the batch
    have hold : ∀ g, firstOpen log id = some g → g < nextOffset (log ++ [b]) := fun g hg =>
      (ih hlog hg).trans (hb.1 ▸ hnext)
    rw [firstOpen_concat] at hf
    split_ifs at hf
    · exact Option.some.inj hf ▸ hnext
    · cases hf
      rcases hg : firstOpen log id with - | g
      · exact hnext
      · exact hold g hg
    · exact hold f hf

/-- In a log where fences are written only for transactions that are not open, a transaction is
    open from its fence to its end marker. -/
theorem Written.firstOpen_eq (h : Written True log) {j k : Nat} (hj : j < log.length)
    (hfence : log[j].isFence id) (hjk : j < k)
    (hno : ∀ (i : Nat) (hi : i < log.length), j < i → i < k → log[i].isEnd id = false) :
    firstOpen (log.take k) id = some log[j].header.baseOffset := by
  induction k, hjk using Nat.le_induction with
  | base =>
    rw [take_add_one, getElem?_eq_getElem hj, Option.toList_some, firstOpen_concat, if_pos hfence]
  | succ k hjk ih =>
    have ih := ih fun i hi hji hik => hno i hi hji (hik.trans (Nat.lt_succ_self k))
    rcases lt_or_ge k log.length with hk | hk
    · have hopen : isOpen id (log.take k) = true := by rw [← isSome_firstOpen, ih]; rfl
      have hf : ¬ log[k].isFence id := fun hf => by
        obtain ⟨⟨txSeq, hkind⟩, hid⟩ := isFence_iff.1 hf
        rcases h k hk with hother | ⟨a, ha, hfits⟩
        · simp [hkind] at hother
        · rw [hid] at ha
          have ha := ha.2 trivial hopen
          rcases hfits.kind with ⟨-, ha'⟩ | ⟨hb, -⟩
          · simp [ha] at ha'
          · rw [isEnd_iff, isTxData_iff, hkind] at hb
            simp at hb
      have he : ¬ log[k].isEnd id := by
        rw [hno k hk hjk (Nat.lt_succ_self k)]
        simp
      rw [take_add_one, getElem?_eq_getElem hk, Option.toList_some, firstOpen_concat,
        if_neg hf, if_neg he, ih]
      split <;> rfl
    · rw [take_of_length_le hk] at ih
      rw [take_of_length_le (hk.trans (Nat.le_succ k)), ih]

end

/-! ## The list of active producers -/

/-- The list has the producers with open transactions, in the order in which these begin. -/
structure InOrder (l : List Int) (first : Int → Option Int) : Prop where
  nodup : l.Nodup
  mem_iff : ∀ id, id ∈ l ↔ (first id).isSome
  sorted : l.Pairwise fun a b => ∀ f g, first a = some f → first b = some g → f < g

namespace InOrder

variable {l : List Int} {first first' : Int → Option Int}

theorem nil (h : ∀ id, first id = none) : InOrder [] first where
  nodup := nodup_nil
  mem_iff id := by simp [h id]
  sorted := .nil

/-- A transaction begins. -/
theorem append (h : InOrder l first) (hid : first id = none) {f : Int} (hf : first' id = some f)
    (hne : ∀ a ≠ id, first' a = first a) (hlt : ∀ a g, first a = some g → g < f) :
    InOrder (l ++ [id]) first' := by
  have hnot : id ∉ l := fun hmem => by simpa [hid] using (h.mem_iff id).1 hmem
  have heq : ∀ a ∈ l, first' a = first a := fun a ha => hne a (ne_of_mem_of_not_mem ha hnot)
  refine ⟨?_, fun a => ?_, ?_⟩
  · exact nodup_append.2 ⟨h.nodup, nodup_singleton id, fun a ha b hb =>
      mem_singleton.1 hb ▸ ne_of_mem_of_not_mem ha hnot⟩
  · rw [mem_append, mem_singleton]
    by_cases ha : a = id
    · simp [ha, hf]
    · simp [ha, hne a ha, h.mem_iff a]
  · refine pairwise_concat.2 ⟨h.sorted.imp_of_mem fun {a b} ha hb hab => ?_,
      fun a ha g g' hg hg' => ?_⟩
    · rwa [heq a ha, heq b hb]
    · rw [hf] at hg'
      rw [heq a ha] at hg
      exact Option.some.inj hg' ▸ hlt a g hg

/-- A transaction ends. -/
theorem erase (h : InOrder l first) (hid : first' id = none)
    (hne : ∀ a ≠ id, first' a = first a) : InOrder (l.erase id) first' := by
  have hmem : ∀ a, a ∈ l.erase id ↔ a ≠ id ∧ a ∈ l := fun a => h.nodup.mem_erase_iff
  refine ⟨h.nodup.erase id, fun a => ?_, ?_⟩
  · rw [hmem]
    by_cases ha : a = id
    · simp [ha, hid]
    · simp [ha, hne a ha, h.mem_iff a]
  · refine (h.sorted.sublist erase_sublist).imp_of_mem fun {a b} ha hb hab => ?_
    rwa [hne a ((hmem a).1 ha).1, hne b ((hmem b).1 hb).1]

theorem congr (h : InOrder l first) (heq : ∀ a, first' a = first a) : InOrder l first' :=
  funext heq ▸ h

/-- The first one began before the others. -/
theorem head_le {l : List Int} {a : Int} (h : InOrder (a :: l) first) {f g : Int}
    (hf : first a = some f) (hg : first id = some g) : f ≤ g := by
  rcases mem_cons.1 ((h.mem_iff id).2 (by simp [hg])) with rfl | hmem
  · exact (Option.some.inj (hf.symm.trans hg)).le
  · exact ((pairwise_cons.1 h.sorted).1 id hmem f g hf hg).le

end InOrder

/-- A batch does not change where the transactions of other producers begin. -/
theorem firstOpen_concat_of_ne {id : Int} (h : id ≠ b.pid.id) :
    firstOpen (log ++ [b]) id = firstOpen log id := by
  rw [firstOpen, openTx_concat, openStep_of_not_isOf (isOf_of_ne h), firstOpen]

/-- Applying a batch keeps the order. -/
theorem InOrder.doApply {s s' : RmStm} (h : InOrder s.activeTxProducers (firstOpen log))
    (hs : s.doApply b = some s') (hlog : Contiguous log) (hb : b.header.baseOffset = nextOffset log)
    (hfits : b.kind = .other ∨ ∃ a, Agree True a (isOpen b.pid.id log) ∧ b.Fits b.pid.id a) :
    InOrder s'.activeTxProducers (firstOpen (log ++ [b])) := by
  have hne : ∀ id ≠ b.pid.id, firstOpen (log ++ [b]) id = firstOpen log id := fun id hid =>
    firstOpen_concat_of_ne hid
  rw [RmStm.doApply] at hs
  rcases hfits with hother | ⟨a, ha, hfits⟩
  · rw [hother] at hs
    cases hs
    refine h.congr fun id => ?_
    rw [firstOpen, openTx_concat, openStep_of_not_isOf (by simp [RecordBatch.isOf, hother]),
      firstOpen]
  · rcases hfits.kind with ⟨hfence, ha'⟩ | ⟨hend | hdata, ha'⟩
    · -- the transaction was not open, so the producer was not in the list
      have hclosed : firstOpen log b.pid.id = none := by
        rw [← Option.not_isSome_iff_eq_none, isSome_firstOpen]
        intro hopen
        simp [ha.2 trivial hopen] at ha'
      have hnot : b.pid.id ∉ s.activeTxProducers := fun hmem => by
        simpa [hclosed] using (h.mem_iff _).1 hmem
      obtain ⟨⟨txSeq, hkind⟩, -⟩ := isFence_iff.1 hfence
      rw [hkind] at hs
      cases hs
      have heq : s.activeTxProducers.erase b.pid.id = s.activeTxProducers :=
        erase_of_not_mem hnot
      have happ := h.append hclosed (by rw [firstOpen_concat, if_pos hfence]) hne
        fun a g hg => hb ▸ hlog.firstOpen_lt hg
      rwa [← heq] at happ
    · obtain ⟨hkind, -⟩ := isEnd_iff.1 hend
      have hf : ¬ b.isFence b.pid.id := fun hf => by
        obtain ⟨⟨txSeq, hkind'⟩, -⟩ := isFence_iff.1 hf
        simp [hkind'] at hkind
      have hclosed : firstOpen (log ++ [b]) b.pid.id = none := by
        rw [firstOpen_concat, if_neg hf, if_pos hend]
      have herase := h.erase hclosed hne
      rcases hkind with hkind | hkind <;>
      · rw [hkind] at hs
        cases hs
        exact herase
    · -- the transaction goes on
      obtain ⟨⟨hkind, hid, htx⟩, -⟩ := isTxData_iff.1 hdata
      obtain ⟨f, hf⟩ : ∃ f, firstOpen log b.pid.id = some f := by
        rw [← Option.isSome_iff_exists, isSome_firstOpen]
        exact ha.1 ha'
      have hmem : b.pid.id ∈ s.activeTxProducers := (h.mem_iff _).2 (by simp [hf])
      rw [hkind] at hs
      simp only [RmStm.applyData, hid, Bool.not_true, Bool.false_eq_true, if_false] at hs
      obtain ⟨p, -, rfl⟩ := Option.map_eq_some_iff.1 hs
      simp only [htx, Bool.true_and, decide_not, Bool.not_eq_true', decide_eq_false_iff_not]
      rw [if_neg (not_not.2 hmem)]
      refine h.congr fun id => ?_
      by_cases hid' : id = b.pid.id
      · have hnf : ¬ b.isFence b.pid.id := fun h => by simp [isFence_iff, hkind] at h
        have hne : ¬ b.isEnd b.pid.id := fun h => by simp [isEnd_iff, hkind] at h
        rw [hid', firstOpen_concat, if_neg hnf, if_neg hne, if_pos hdata, hf]
        rfl
      · exact hne id hid'

/-! ## What the replicas know -/

/-- A fence in the log whose transaction has no end marker that is applied, if the first
    `applied` batches are. -/
structure OpenFence (log : List RecordBatch) (applied j : Nat) (b : RecordBatch) : Prop where
  get : log[j]? = some b
  isFence : b.isFence b.pid.id
  isEnd : ∀ i b', log[i]? = some b' → j < i → i < applied → b'.isEnd b.pid.id = false

/-- An offset that is not above the open transactions, now or later. -/
structure Stable {ν : Type} (L : ReplicatedLog ν RecordBatch) (applied : Nat) (offset : Int) :
    Prop where
  le_nextOffset : offset ≤ nextOffset (L.entries.take L.committed)
  le_fence : ∀ {j b}, OpenFence L.entries applied j b → offset ≤ b.header.baseOffset

/-- Of two stable offsets, the larger one is stable. -/
theorem Stable.max {ν : Type} {L : ReplicatedLog ν RecordBatch} {applied : Nat} {o o' : Int}
    (h : Stable L applied o) (h' : Stable L applied o') : Stable L applied (max o o') where
  le_nextOffset := max_le h.le_nextOffset h'.le_nextOffset
  le_fence hb := max_le (h.le_fence hb) (h'.le_fence hb)

/-- The transaction of an open fence is open for a replica that has applied it. -/
theorem OpenFence.firstOpen_eq {applied j : Nat} (h : OpenFence log applied j b)
    (hwritten : Written True log) (hj : j < applied) :
    firstOpen (log.take applied) b.pid.id = some b.header.baseOffset := by
  obtain ⟨hlt, rfl⟩ := List.getElem?_eq_some_iff.1 h.get
  exact hwritten.firstOpen_eq hlt h.isFence hj fun i hi hji hik =>
    h.isEnd i log[i] (getElem?_eq_getElem hi) hji hik

variable {ν : Type}

namespace TxReplica

structure LsoInv (L : ReplicatedLog ν RecordBatch) (x : TxReplica) : Prop where
  openRange_eq : ∀ id, x.stm.openRange id = openTx id (L.entries.take x.applied)
  inOrder : InOrder x.stm.activeTxProducers (firstOpen (L.entries.take x.applied))
  stable : Stable L x.applied x.stm.lastKnownLso
  answers_le : ∀ r ∈ x.answers, r ≤ x.stm.lastKnownLso

theorem lsoInv_init : LsoInv ({} : ReplicatedLog ν RecordBatch) {} where
  openRange_eq _ := rfl
  inOrder := .nil fun _ => rfl
  stable := ⟨(by decide : (-1 : Int) ≤ 0), fun h => absurd h.get (by simp)⟩
  answers_le := by simp

variable {L L' : ReplicatedLog ν RecordBatch} {n : ν} {x x' : TxReplica}

section

variable (h : LsoInv L x)

include h

theorem LsoInv.congr {stm : RmStm} (hs : x.stm.Same stm) : LsoInv L { x with stm := stm } where
  openRange_eq id := (hs.openRange id).trans (h.openRange_eq id)
  inOrder := hs.active ▸ h.inOrder
  stable := hs.lastKnownLso ▸ h.stable
  answers_le := hs.lastKnownLso ▸ h.answers_le

/-- The log changes, but what is committed stays, and new fences come after it. -/
theorem LsoInv.frame (happlied : x.applied ≤ L.committed)
    (hcontiguous : Contiguous L'.entries) (hg : L.Grows L')
    (hfence : ∀ (j : Nat) b, L'.entries[j]? = some b → b.isFence b.pid.id →
      L.entries[j]? = some b ∨ nextOffset (L.entries.take L.committed) ≤ b.header.baseOffset) :
    LsoInv L' x := by
  have happly := hg.take_eq happlied
  refine ⟨by rw [happly]; exact h.openRange_eq, by rw [happly]; exact h.inOrder,
    ⟨?_, fun {j b} hb => ?_⟩, h.answers_le⟩
  · refine h.stable.le_nextOffset.trans ?_
    rw [← hg.take_eq le_rfl]
    exact hcontiguous.nextOffset_mono hg.committed_le
  · rcases hfence j b hb.get hb.isFence with hget | hle
    · refine h.stable.le_fence ⟨hget, hb.isFence, fun i b' hb' hji hi => ?_⟩
      exact hb.isEnd i b' ((hg.getElem?_eq (hi.trans_le happlied)).trans hb') hji hi
    · exact h.stable.le_nextOffset.trans hle

theorem LsoInv.append (happlied : x.applied ≤ L.committed)
    (hcontiguous : Contiguous (L.append b).entries) : LsoInv (L.append b) x := by
  refine h.frame happlied hcontiguous (L.grows_append b) fun j b' hb' _ => ?_
  rcases lt_or_ge j L.entries.length with hj | hj
  · rw [ReplicatedLog.append_entries, getElem?_append_left hj] at hb'
    exact .inl hb'
  · -- the new batch comes after all the others
    rw [hcontiguous.baseOffset_eq hb', ← (L.grows_append b).take_eq le_rfl]
    exact .inr (hcontiguous.nextOffset_mono (L.committed_le.trans hj))

theorem LsoInv.stepDown [DecidableEq ν] (m : ν) (t : Nat) : LsoInv (L.stepDown m t) x := by
  rw [ReplicatedLog.stepDown]
  split
  · exact { h with stable := { h.stable with } }
  · exact h

/-! ## Applying and syncing -/

/-- Applying a batch opens or closes a transaction, as in the log. -/
theorem LsoInv.apply (hwritten : Written True L.entries)
    (hcontiguous : Contiguous L.entries) {stm : RmStm} (hb : L.entries[x.applied]? = some b)
    (hs : x.stm.doApply b = some stm) (hfence : (x.stm.maybeCreateProducer b.pid).AcceptsFence b) :
    LsoInv L { x with stm := stm, applied := x.applied + 1 } := by
  obtain ⟨hlt, rfl⟩ := List.getElem?_eq_some_iff.1 hb
  have htake : L.entries.take (x.applied + 1) =
      L.entries.take x.applied ++ [L.entries[x.applied]] := by
    rw [take_add_one, hb]
    rfl
  refine ⟨fun id => ?_, ?_, ⟨?_, fun {j b} hb => ?_⟩, ?_⟩
  · rw [htake, openTx_concat, ← h.openRange_eq]
    exact RmStm.openRange_doApply hs hfence id
  · rw [htake]
    exact h.inOrder.doApply hs (hcontiguous.take _) (hcontiguous _ hlt).1 (hwritten _ hlt)
  · rw [RmStm.lastKnownLso_doApply hs]
    exact h.stable.le_nextOffset
  · rw [RmStm.lastKnownLso_doApply hs]
    exact h.stable.le_fence ⟨hb.get, hb.isFence, fun i b' hb' hji hi =>
      hb.isEnd i b' hb' hji (Nat.lt_succ_of_lt hi)⟩
  · rw [RmStm.lastKnownLso_doApply hs]
    exact h.answers_le

/-- Syncing in a new term drops requests only. -/
theorem LsoInv.sync (hcontiguous : Contiguous L.entries) : LsoInv L
      { x with stm := x.stm.gcRequests L.term, insyncTerm := L.term, answers := [] } where
  openRange_eq id := (x.stm.openRange_gcRequests L.term id).trans (h.openRange_eq id)
  inOrder := h.inOrder
  stable := by
    refine ⟨(by decide : (-1 : Int) ≤ 0).trans (hcontiguous.nextOffset_nonneg _),
      fun {j b} hb => ?_⟩
    rw [hcontiguous.baseOffset_eq hb.get]
    exact (by decide : (-1 : Int) ≤ 0).trans (hcontiguous.nextOffset_nonneg j)
  answers_le _ h := absurd h not_mem_nil

/-! ## Reading the last stable offset -/

/-- The fences that a replica has applied are those of its active producers. -/
theorem LsoInv.mem_active (hwritten : Written True L.entries) {j : Nat}
    (hb : OpenFence L.entries x.applied j b) (hj : j < x.applied) :
    b.pid.id ∈ x.stm.activeTxProducers := by
  rw [h.inOrder.mem_iff, hb.firstOpen_eq hwritten hj]
  rfl

/-- The beginning of the first open transaction. -/
theorem LsoInv.firstTxStart_eq {f : Int} (hf : x.stm.firstTxStart = some (some f)) :
    ∃ id l, x.stm.activeTxProducers = id :: l ∧
      firstOpen (L.entries.take x.applied) id = some f := by
  rw [RmStm.firstTxStart] at hf
  split at hf
  · cases hf
  · rename_i id l hl
    refine ⟨id, l, hl, ?_⟩
    split at hf
    · cases hf
    · rename_i t ht
      split at hf
      · cases hf
      · cases Option.some.inj hf
        have hsome := (h.inOrder.mem_iff id).1 (by rw [hl]; exact mem_cons_self)
        rw [firstOpen, ← h.openRange_eq] at hsome ⊢
        obtain ⟨p, hp, ht⟩ := Option.bind_eq_some_iff.1 ht
        rw [RmStm.openRange_of_get hp, ProducerState.openRange, ht] at hsome ⊢
        simp only [Option.bind_some, TransactionState.openRange] at hsome ⊢
        split at hsome
        · rename_i hin
          simp [hin]
        · cases hsome

end

theorem firstTxStart_eq_none {s : RmStm} (h : s.firstTxStart = some none) :
    s.activeTxProducers = [] := by
  rw [RmStm.firstTxStart] at h
  split at h
  · assumption
  · split at h
    · exact nomatch h
    · split at h <;> exact nomatch h

/-- A synced leader without `begin_tx` has applied all fences. -/
theorem Inv.lt_applied (hinv : x.Inv True L n) (hleads : L.Leads n x.insyncTerm)
    (hlock : x.operations.rows.any (·.isBegin) = false) {j : Nat} (hb : L.entries[j]? = some b)
    (hfence : b.isFence b.pid.id) : j < x.applied := by
  by_contra hge
  obtain ⟨hlt, rfl⟩ := List.getElem?_eq_some_iff.1 hb
  obtain ⟨b', next, hget, hkind⟩ := hinv.unapplied hleads j hlt (not_lt.1 hge) _ (.inl hfence)
  obtain ⟨⟨txSeq, hkind'⟩, -⟩ := isFence_iff.1 hfence
  have hmem := (OrderedStore.get_eq_some.1 hget).1
  have hbegin := any_eq_false.1 hlock _ hmem
  rw [TxOperation.isBegin] at hbegin
  simp [← hkind, hkind'] at hbegin

variable [DecidableEq ν]

theorem active_lso (x : TxReplica) (L : ReplicatedLog ν RecordBatch) (n : ν) (b₁ b₂ : Bool)
    (visible : Nat) : (x.lso L n b₁ b₂ visible).1.activeTxProducers = x.stm.activeTxProducers := by
  rw [TxReplica.lso, RmStm.lastStableOffset]
  repeat' split
  all_goals rfl

section

variable (h : LsoInv L x) (hinv : x.Inv True L n) (hwritten : Written True L.entries)
  (hcontiguous : Contiguous L.entries)

include h hinv hwritten hcontiguous

/-- What `last_stable_offset` computes is stable. -/
theorem LsoInv.stable_lso (hlock : x.operations.rows.any (·.isBegin) = false) {first : Option Int}
    (hfirst : x.stm.firstTxStart = some first) (visible : Nat) :
    Stable L x.applied (first.getD
      (if decide (L.Leads n x.insyncTerm) then
        nextOffset (L.entries.take (min visible L.committed)) - 1 + 1
      else nextOffset (L.entries.take x.applied) - 1 + 1)) := by
  rcases first with - | f
  · -- all transactions that are applied have ended
    have hnone := firstTxStart_eq_none hfirst
    have happlied : ∀ {j b}, OpenFence L.entries x.applied j b → x.applied ≤ j := fun {j b} hb => by
      by_contra hlt
      have := h.mem_active hwritten hb (not_le.1 hlt)
      rw [hnone] at this
      cases this
    rw [Option.getD_none, Int.sub_add_cancel, Int.sub_add_cancel]
    split
    · rename_i hleads
      refine ⟨hcontiguous.nextOffset_mono (min_le_right _ _), fun {j b} hb => ?_⟩
      exact absurd (hinv.lt_applied (of_decide_eq_true hleads) hlock hb.get hb.isFence)
        (not_lt.2 (happlied hb))
    · refine ⟨hcontiguous.nextOffset_mono hinv.applied_le, fun {j b} hb => ?_⟩
      rw [hcontiguous.baseOffset_eq hb.get]
      exact hcontiguous.nextOffset_mono (happlied hb)
  · obtain ⟨id, l, hl, hf⟩ := h.firstTxStart_eq hfirst
    have hlt := (hcontiguous.take x.applied).firstOpen_lt hf
    rw [Option.getD_some]
    refine ⟨hlt.le.trans (hcontiguous.nextOffset_mono hinv.applied_le), fun {j b} hb => ?_⟩
    rcases lt_or_ge j x.applied with hj | hj
    · have horder := h.inOrder
      rw [hl] at horder
      exact horder.head_le hf (hb.firstOpen_eq hwritten hj)
    · rw [hcontiguous.baseOffset_eq hb.get]
      exact hlt.le.trans (hcontiguous.nextOffset_mono hj)

/-- What `last_stable_offset` returns and remembers. -/
theorem LsoInv.lso (bootstrapping stateLocked : Bool) (visible : Nat) :
    let r := x.lso L n bootstrapping stateLocked visible
    Stable L x.applied r.1.lastKnownLso ∧ x.stm.lastKnownLso ≤ r.1.lastKnownLso ∧
      (r.2 = invalidLso ∨ r.2 = r.1.lastKnownLso) := by
  dsimp only [TxReplica.lso, RmStm.lastStableOffset]
  split
  · exact ⟨h.stable, le_rfl, .inl rfl⟩
  · split
    · exact ⟨h.stable, le_rfl, .inr rfl⟩
    · rename_i hlocked
      have hlock : x.operations.rows.any (·.isBegin) = false := by
        rw [Bool.or_eq_true, not_or, Bool.not_eq_true, Bool.not_eq_true] at hlocked
        exact hlocked.2
      split
      · exact ⟨h.stable, le_rfl, .inl rfl⟩
      · rename_i first hfirst
        exact ⟨h.stable.max (h.stable_lso hinv hwritten hcontiguous hlock hfirst visible),
          le_max_left _ _, .inr rfl⟩

/-- What is read is stable. -/
theorem LsoInv.readLso (bootstrapping stateLocked : Bool) (visible : Nat) :
    LsoInv L (x.readLso L n bootstrapping stateLocked visible) := by
  obtain ⟨hstable, hle, heq⟩ := h.lso hinv hwritten hcontiguous bootstrapping stateLocked visible
  refine ⟨fun id => ?_, ?_, hstable, fun r hr => ?_⟩
  · exact (x.stm.openRange_lastStableOffset ..).trans (h.openRange_eq id)
  · simp only [TxReplica.readLso, active_lso]
    exact h.inOrder
  · simp only [TxReplica.readLso] at hr ⊢
    split at hr
    · exact (h.answers_le r hr).trans hle
    · rename_i hne
      rcases mem_cons.1 hr with rfl | hr
      · exact (heq.resolve_left hne).le
      · exact (h.answers_le r hr).trans hle

/-! ## The steps -/

/-- Every effect of a replica keeps its invariant. -/
theorem LsoInv.effect {a : TxNodeAction} (he : Effect x L n a L' x')
    (hfence : a = .apply → ∀ b, L.entries[x.applied]? = some b →
      (x.stm.maybeCreateProducer b.pid).AcceptsFence b) :
    Contiguous L'.entries ∧ LsoInv L' x' := by
  cases he with
  | keep hs | start hs | release hs => exact ⟨hcontiguous, { h.congr hs with }⟩
  | read b₁ b₂ visible =>
    exact ⟨hcontiguous, h.readLso hinv hwritten hcontiguous b₁ b₂ visible⟩
  | sync => exact ⟨hcontiguous, h.sync hcontiguous⟩
  | reply | refence => exact ⟨hcontiguous, { h with }⟩
  | @enqueue _ o b next hget hphase hleads =>
    obtain ⟨a, -, hfits⟩ := hinv.decided o (OrderedStore.get_eq_some.1 hget).1 hleads
      (by rw [hphase]; rfl)
    rw [hphase] at hfits
    have hle : 0 ≤ (b.place (nextOffset L.entries) o.term).header.lastOffsetDelta := hfits.1.le
    have hcontiguous' := hcontiguous.concat rfl hle
    exact ⟨hcontiguous', { h.append hinv.applied_le hcontiguous' with }⟩
  | @fail _ o hget =>
    exact ⟨by simpa using hcontiguous, { h.stepDown n o.term with }⟩
  | apply hlt hb hs =>
    exact ⟨hcontiguous, h.apply hwritten hcontiguous hb hs (hfence rfl _ hb)⟩
  | stepDown t =>
    exact ⟨by simpa using hcontiguous, h.stepDown n t⟩
  | other _ _ hb hle =>
    exact ⟨hcontiguous.concat hb hle, h.append hinv.applied_le (hcontiguous.concat hb hle)⟩

end

end TxReplica

/-! ## The partition -/

namespace TxPartition

structure LsoInv (σ : TxPartition ν) : Prop extends Inv True σ where
  contiguous : Contiguous σ.log.entries
  lso : ∀ n, (σ.replicas n).LsoInv σ.log

theorem lsoInv_init : LsoInv ({} : TxPartition ν) where
  toInv := inv_init True
  contiguous := contiguous_nil
  lso _ := TxReplica.lsoInv_init

variable [DecidableEq ν] {σ τ : TxPartition ν}

/-- The steps that do not apply a fence with an epoch below the one the replica knows. -/
def AcceptingStep (σ : TxPartition ν) (a : TxAction ν) (τ : TxPartition ν) : Prop :=
  σ.AcceptsFences a ∧ σ.next a = some τ

/-- Every step keeps the invariant of the partition. -/
theorem LsoInv.step (h : LsoInv σ) {a : TxAction ν} (hstep : σ.AcceptingStep a τ) : LsoInv τ := by
  obtain ⟨hfence, hstep⟩ := hstep
  have hinv := h.toInv.step hstep fun _ => hfence
  suffices Contiguous τ.log.entries ∧ ∀ n, (τ.replicas n).LsoInv τ.log from ⟨hinv, this.1, this.2⟩
  cases a with
  | node n a =>
    obtain ⟨⟨L', x'⟩, hact, rfl⟩ := Option.map_eq_some_iff.1 hstep
    have he := TxReplica.effect_of_act hact
    obtain ⟨hcontiguous, hlso⟩ := (h.lso n).effect (h.replicas n) h.written h.contiguous he
      fun ha => by
        subst ha
        exact hfence
    refine ⟨hcontiguous, (Function.forall_update_iff σ.replicas fun m x => x.LsoInv L').2
      ⟨hlso, fun m hm => ?_⟩⟩
    rcases he.log with rfl | ⟨t, rfl⟩ | ⟨-, b, rfl⟩
    · exact h.lso m
    · exact (h.lso m).stepDown n t
    · exact (h.lso m).append (h.replicas m).applied_le hcontiguous
  | commit k =>
    cases hstep
    exact ⟨h.contiguous, fun n => (h.lso n).frame (h.replicas n).applied_le h.contiguous
      (σ.log.grows_commit k) fun j b hb _ => .inl hb⟩
  | elect n k =>
    cases hstep
    have hcontiguous := h.contiguous.take (max σ.log.committed k)
    refine ⟨hcontiguous, fun m => (h.lso m).frame (h.replicas m).applied_le hcontiguous
      (σ.log.grows_elect n k) fun j b hb _ => .inl ?_⟩
    rw [ReplicatedLog.elect_entries, getElem?_take] at hb
    exact (Option.ite_none_right_eq_some.1 hb).2

/-- The last stable offset that a replica returns is not above the fence of any transaction
    without an end marker that the replica has applied, and not below what it returned before in
    the term. No replica may apply a fence with an epoch below the one it knows. -/
theorem lso_le_of_run {as : List (TxAction ν)} (h : Run AcceptingStep {} as σ) (n : ν)
    (bootstrapping stateLocked : Bool) (visible : Nat) {offset : Int}
    (hlso : ((σ.replicas n).lso σ.log n bootstrapping stateLocked visible).2 = offset)
    (hvalid : offset ≠ invalidLso) :
    (∀ j b, OpenFence σ.log.entries (σ.replicas n).applied j b → offset ≤ b.header.baseOffset) ∧
      ∀ earlier ∈ (σ.replicas n).answers, earlier ≤ offset := by
  have hinv : LsoInv σ := Run.invariant (fun h hstep => h.step hstep) h lsoInv_init
  obtain ⟨hstable, hle, heq⟩ := (hinv.lso n).lso (hinv.replicas n) hinv.written hinv.contiguous
    bootstrapping stateLocked visible
  rw [hlso] at heq
  have heq := heq.resolve_left hvalid
  refine ⟨fun j b hb => ?_, fun r hr => ?_⟩
  · rw [heq]
    exact hstable.le_fence hb
  · rw [heq]
    exact ((hinv.lso n).answers_le r hr).trans hle

/-- A transaction is begun: the operation writes its fence, which is committed and applied. -/
def beginTxRun (n : ν) (term : Nat) (pid : ProducerIdentity) (txSeq : Int) (committed : Nat) :
    List (TxAction ν) :=
  [.node n (.create pid), .node n (.beginTx term pid txSeq), .node n (.enqueue pid.id),
    .commit committed, .node n .apply, .node n (.finish pid.id)]

/-- A transaction is committed, and another one is open. -/
def openRun : List (TxAction Bool) :=
  leadTx true 0 0 ++ beginTxRun true 1 ⟨1, 0⟩ 0 1 ++
  [.node true (.commitTx 1 1 0), .node true (.enqueue 1), .commit 2, .node true .apply,
    .node true (.finish 1), .node true (.lastStableOffset false false 2)] ++
  beginTxRun true 1 ⟨1, 0⟩ 1 3

theorem lso_le_of_run_open :
    ∃ σ : TxPartition Bool, Run AcceptingStep {} openRun σ ∧
      ((σ.replicas true).lso σ.log true false false 3).2 = 2 ∧
      (∀ j b, OpenFence σ.log.entries (σ.replicas true).applied j b → 2 ≤ b.header.baseOffset) ∧
      ∀ earlier ∈ (σ.replicas true).answers, earlier ≤ 2 := by
  have h : (openRun.foldlM (fun σ a => if AcceptsFences σ a then next σ a else none) {}).map
      (fun σ => ((σ.replicas true).lso σ.log true false false 3).2) = some 2 := by decide
  obtain ⟨σ, hrun, hlso⟩ := Run.exists_of_foldlM h
  exact ⟨σ, hrun, hlso, lso_le_of_run hrun true false false 3 hlso (by decide)⟩

/-- A replica gets to know a producer by a request that fails. Another one becomes the leader and
    begins a transaction for an older instance of the producer. -/
def downgradeRun : List (TxAction Bool) :=
  leadTx true 0 0 ++
  [.node true (.create ⟨1, 5⟩), .node true (.beginTx 1 ⟨1, 5⟩ 0), .node true (.fail 1)] ++
  leadTx false 0 0 ++ beginTxRun false 2 ⟨1, 3⟩ 0 1 ++
  [.node false (.data 2 { producerId := 1, producerEpoch := 3, baseSequence := 0
                          isTransactional := true }),
    .node false (.enqueue 1), .commit 2, .node true .apply, .node true .apply]

/-- The first replica ignores the fence, and takes the data after it for the beginning of the
    transaction. -/
theorem exists_run_lt_lso :
    ∃ (σ : TxPartition Bool) (b : RecordBatch), Run Step {} downgradeRun σ ∧
      OpenFence σ.log.entries (σ.replicas true).applied 0 b ∧ b.header.baseOffset = 0 ∧
      ((σ.replicas true).lso σ.log true false false 2).2 = 1 := by
  have h : (downgradeRun.foldlM next {}).map (fun σ =>
      (σ.log.entries, ((σ.replicas true).lso σ.log true false false 2).2)) =
      some ([(makeFenceBatch ⟨⟨1, 3⟩, some 0⟩).place 0 2,
        ⟨{ baseOffset := 1, producerId := 1, producerEpoch := 3, baseSequence := 0
           isTransactional := true, term := 2 }, .data⟩], 1) := by decide
  obtain ⟨σ, hrun, hσ⟩ := Run.exists_of_map_foldlM h
  obtain ⟨hlog, hlso⟩ := Prod.mk.inj hσ
  refine ⟨σ, _, hrun, ⟨by rw [hlog]; rfl, by decide, fun i b hb hi _ => ?_⟩, rfl,
    hlso⟩
  -- there is no end marker in the log
  have hno : ∀ b ∈ σ.log.entries, b.isEnd 1 = false := by
    rw [hlog]
    decide
  exact hno b (mem_of_getElem? hb)

end TxPartition

end Redpanda.Cluster
