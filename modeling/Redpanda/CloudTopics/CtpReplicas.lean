import Redpanda.CloudTopics.CtpLog
import Redpanda.Lib.Run

/-!
# The replicas of a cloud topic partition

Every replica of a partition applies the committed batches to its own state. It reports the epoch
that is inactive (`CtpReplica.estimateInactiveEpoch`), held back by the first of its active readers.
It may restart from a snapshot, of its own or of another replica, and the state in the snapshot may
be newer than the offset from which the batches are applied again.

The log `CtpPartition.log` is the one of the leader. A new leader may replace batches that are not
committed (`PartitionStep.truncate`). Batches are appended under an epoch fence, which is taken to
keep the epochs in their window (`CtpPartition.Admits`).

In every run, the state of a replica is that of a prefix of the committed log, and so are the
states in which its active readers started (`CtpPartition.Inv`). What a replica reports is therefore
below the epochs of all batches above the offset up to which it could remove its log
(`CtpPartition.lt_epoch_of_report`).
-/

namespace Redpanda.CloudTopics

open Lib Model List

/-- A reader, with the state in which it started. -/
structure ActiveReaderState where
  inactiveEpoch : Option Int
  lrlo : Int
  deriving DecidableEq

/-- The reader that starts in a state. -/
def CtpStmState.reader (s : CtpStmState) : ActiveReaderState :=
  ⟨s.estimateInactiveEpoch, s.getMaxCollectibleOffset⟩

/-- A replica of a partition. -/
structure CtpReplica where
  applied : Nat := 0
  state : CtpStmState := {}
  activeReaders : List ActiveReaderState := []
  deriving DecidableEq

namespace CtpReplica

variable (r : CtpReplica)

/-- The epoch that a replica reports. -/
def estimateInactiveEpoch : Option Int :=
  match r.activeReaders with
  | d :: _ => d.inactiveEpoch
  | [] => r.state.estimateInactiveEpoch

/-- The offset up to which a replica may remove its log. -/
def maxRemovableLocalLogOffset : Int :=
  match r.activeReaders with
  | d :: _ => d.lrlo
  | [] => r.state.getMaxCollectibleOffset

/-- A reader starts. -/
def registerReader : CtpReplica :=
  { r with activeReaders := r.activeReaders ++ [r.state.reader] }

end CtpReplica

/-- A partition with its replicas. -/
structure CtpPartition (ι : Type) where
  log : List CtpBatch
  committed : Nat
  replicas : ι → CtpReplica
  /-- The snapshots that were taken, with the number of batches that were applied. -/
  snapshots : List (CtpStmState × Nat)

/-- What happens to a partition. -/
inductive PartitionStep (ι : Type) where
  | append (b : CtpBatch)
  | truncate (n : Nat)
  | commit (n : Nat)
  | apply (r : ι)
  | takeSnapshot (r : ι)
  | restart (r : ι) (snapshot n : Nat)
  | registerReader (r : ι)
  | unregisterReader (r : ι) (i : Nat)

namespace CtpPartition

variable {ι : Type}

/-- A new partition. -/
def create : CtpPartition ι := ⟨[], 0, fun _ => {}, [({}, 0)]⟩

/-- The batch may be appended: its epoch is in the window of the log or above it, and the
    reconciled offset is before the batch. -/
def Admits (σ : CtpPartition ι) (b : CtpBatch) : Prop :=
  (∀ e ∈ b.epoch?, ClusterEpoch.min < e ∧ (windowOf (epochsOf σ.log)).lo ≤ e) ∧
    match b with
    | .advanceReconciledOffset _ logOffset => logOffset < σ.log.length
    | _ => True

instance (σ : CtpPartition ι) (b : CtpBatch) : Decidable (σ.Admits b) := by
  unfold Admits
  cases b <;> infer_instance

variable [DecidableEq ι]

/-- One step. -/
def next (σ : CtpPartition ι) : PartitionStep ι → Option (CtpPartition ι)
  | .append b => if σ.Admits b then some { σ with log := σ.log ++ [b] } else none
  | .truncate n => if σ.committed ≤ n then some { σ with log := σ.log.take n } else none
  | .commit n =>
    if σ.committed ≤ n ∧ n ≤ σ.log.length then some { σ with committed := n } else none
  | .apply r =>
    let replica := σ.replicas r
    if replica.applied < σ.committed then
      σ.log[replica.applied]?.map fun b =>
        { σ with
          replicas := Function.update σ.replicas r
            { replica with
              applied := replica.applied + 1, state := replica.state.apply b replica.applied } }
    else none
  | .takeSnapshot r =>
    some { σ with snapshots := σ.snapshots ++ [((σ.replicas r).state, (σ.replicas r).applied)] }
  | .restart r snapshot n =>
    σ.snapshots[snapshot]?.bind fun s =>
      if n ≤ s.2 then
        some { σ with replicas := Function.update σ.replicas r { applied := n, state := s.1 } }
      else none
  | .registerReader r =>
    some { σ with replicas := Function.update σ.replicas r (σ.replicas r).registerReader }
  | .unregisterReader r i =>
    let replica := σ.replicas r
    some { σ with
      replicas := Function.update σ.replicas r
        { replica with activeReaders := replica.activeReaders.eraseIdx i } }

/-- The steps of a partition. -/
def Step (σ : CtpPartition ι) (a : PartitionStep ι) (σ' : CtpPartition ι) : Prop :=
  σ.next a = some σ'

end CtpPartition

/-! ## Invariants -/

/-- The state is that of a prefix of the committed log, and the readers have started in those of
    shorter prefixes, one after the other. -/
def CtpReplica.Inv (log : List CtpBatch) (committed : Nat) (r : CtpReplica) : Prop :=
  ∃ (seen : Nat) (starts : List Nat), r.applied ≤ seen ∧ seen ≤ committed ∧
    r.state = stateOf (log.take seen) ∧
    r.activeReaders = starts.map (fun n => (stateOf (log.take n)).reader) ∧
    (starts ++ [seen]).Pairwise (· ≤ ·)

namespace CtpReplica.Inv

variable {log log' : List CtpBatch} {committed committed' : Nat} {r : CtpReplica}

variable (h : r.Inv log committed)

include h

/-- The committed log stays. -/
theorem mono (hle : committed ≤ committed') (hlog : log'.take committed = log.take committed) :
    r.Inv log' committed' := by
  obtain ⟨seen, starts, happlied, hseen, hstate, hreaders, hsorted⟩ := h
  have htake : ∀ n ≤ committed, log'.take n = log.take n := fun n hn => by
    rw [← min_eq_left hn, ← take_take, hlog, take_take]
  refine ⟨seen, starts, happlied, hseen.trans hle, (htake seen hseen).symm ▸ hstate, ?_, hsorted⟩
  rw [hreaders]
  refine map_congr_left fun n hn => ?_
  rw [htake n (((pairwise_concat.1 hsorted).2 n hn).trans hseen)]

/-- The next batch is applied, or applied again. -/
theorem apply (hl : ValidLog log) {b : CtpBatch} (hlt : r.applied < committed)
    (hb : log[r.applied]? = some b) :
    Inv log committed
      { r with applied := r.applied + 1, state := r.state.apply b r.applied } := by
  obtain ⟨seen, starts, happlied, hseen, hstate, hreaders, hsorted⟩ := h
  rcases lt_or_eq_of_le happlied with hold | rfl
  · have hb' : (log.take seen)[r.applied]? = some b := by
      rwa [getElem?_take_of_lt hold]
    refine ⟨seen, starts, hold, hseen, ?_, hreaders, hsorted⟩
    rw [hstate]
    exact apply_of_lt (hl.of_isPrefix (List.take_prefix _ _)) hb' _
  · refine ⟨r.applied + 1, starts, le_rfl, hlt, ?_, hreaders, ?_⟩
    · rw [hstate, take_add_one, hb]
      have hlength : (log.take r.applied).length = r.applied := by
        rw [length_take, min_eq_left (List.getElem?_eq_some_iff.1 hb).1.le]
      exact (stateOf_concat _ b).symm ▸ hlength.symm ▸ rfl
    · rw [pairwise_concat] at hsorted ⊢
      exact ⟨hsorted.1, fun n hn => (hsorted.2 n hn).trans (Nat.le_succ _)⟩

theorem registerReader : r.registerReader.Inv log committed := by
  obtain ⟨seen, starts, happlied, hseen, hstate, hreaders, hsorted⟩ := h
  refine ⟨seen, starts ++ [seen], happlied, hseen, hstate, ?_, ?_⟩
  · rw [CtpReplica.registerReader, hreaders, hstate, map_append]
    rfl
  · exact pairwise_concat.2 ⟨hsorted, forall_mem_concat.2 ⟨(pairwise_concat.1 hsorted).2, le_rfl⟩⟩

theorem unregisterReader (i : Nat) :
    Inv log committed { r with activeReaders := r.activeReaders.eraseIdx i } := by
  obtain ⟨seen, starts, happlied, hseen, hstate, hreaders, hsorted⟩ := h
  refine ⟨seen, starts.eraseIdx i, happlied, hseen, hstate, ?_, ?_⟩
  · rw [hreaders]
    exact eraseIdx_map _ _ _
  · exact hsorted.sublist ((eraseIdx_sublist _ _).append_right _)

/-- A report is the inactive epoch of a prefix of the log. The offset up to which the log may be
    removed is the reconciled one of the prefix, and is not above that of the replica and of its
    readers. -/
theorem report : ∃ n ≤ committed,
    r.estimateInactiveEpoch = (stateOf (log.take n)).estimateInactiveEpoch ∧
    r.maxRemovableLocalLogOffset = (stateOf (log.take n)).getMaxCollectibleOffset ∧
    r.maxRemovableLocalLogOffset ≤ r.state.getMaxCollectibleOffset ∧
    ∀ d ∈ r.activeReaders, r.maxRemovableLocalLogOffset ≤ d.lrlo := by
  obtain ⟨seen, starts, happlied, hseen, hstate, hreaders, hsorted⟩ := h
  have hmono : ∀ n m, n ≤ m → (stateOf (log.take n)).getMaxCollectibleOffset ≤
      (stateOf (log.take m)).getMaxCollectibleOffset := fun n m hle =>
    getMaxCollectibleOffset_mono (take_prefix_take_left hle)
  cases starts with
  | nil =>
    rw [estimateInactiveEpoch, maxRemovableLocalLogOffset, hreaders, hstate]
    exact ⟨seen, hseen, rfl, rfl, le_rfl, nofun⟩
  | cons n starts =>
    have hle : ∀ m ∈ starts ++ [seen], n ≤ m := (pairwise_cons.1 hsorted).1
    have hn : n ≤ seen := hle seen mem_concat_self
    rw [estimateInactiveEpoch, maxRemovableLocalLogOffset, hreaders, hstate]
    refine ⟨n, hn.trans hseen, rfl, rfl, hmono n seen hn, forall_mem_map.2 (forall_mem_cons.2
      ⟨le_rfl, fun m hm => hmono n m (hle m (mem_append_left _ hm))⟩)⟩

end CtpReplica.Inv

namespace CtpPartition

variable {ι : Type} {σ σ' : CtpPartition ι} {a : PartitionStep ι}

/-- The invariant of a partition. -/
structure Inv (σ : CtpPartition ι) : Prop where
  log : ValidLog σ.log
  committed_le : σ.committed ≤ σ.log.length
  replicas : ∀ r, (σ.replicas r).Inv σ.log σ.committed
  snapshots : ∀ s ∈ σ.snapshots, CtpReplica.Inv σ.log σ.committed { applied := s.2, state := s.1 }

theorem inv_new (log : List CtpBatch) (committed : Nat) : CtpReplica.Inv log committed {} :=
  ⟨0, [], le_rfl, Nat.zero_le _, rfl, rfl, pairwise_singleton _ _⟩

theorem inv_create : Inv (create : CtpPartition ι) where
  log := .nil
  committed_le := le_rfl
  replicas _ := inv_new _ _
  snapshots _ hs := (mem_singleton.1 hs) ▸ inv_new _ _

/-- The log changes above what is committed. -/
theorem Inv.setLog (h : σ.Inv) {log : List CtpBatch} (hl : ValidLog log)
    (hle : σ.committed ≤ log.length) (htake : log.take σ.committed = σ.log.take σ.committed) :
    Inv { σ with log } where
  log := hl
  committed_le := hle
  replicas r := (h.replicas r).mono le_rfl htake
  snapshots s hs := (h.snapshots s hs).mono le_rfl htake

/-- The offset up to which a replica could remove its log is before what is not committed. -/
theorem Inv.maxRemovable_lt (h : σ.Inv) (r : ι) :
    (σ.replicas r).maxRemovableLocalLogOffset < σ.committed := by
  obtain ⟨n, hn, -, hremovable, -⟩ := (h.replicas r).report
  rw [hremovable]
  have hlt := (stateInv_stateOf (h.log.of_isPrefix (List.take_prefix n _))).collectible_lt
  rw [length_take] at hlt
  exact hlt.trans_le (Int.ofNat_le.2 ((min_le_left _ _).trans hn))

variable [DecidableEq ι]

theorem Inv.setReplica (h : σ.Inv) (r : ι) {replica : CtpReplica}
    (hr : replica.Inv σ.log σ.committed) :
    Inv { σ with replicas := Function.update σ.replicas r replica } :=
  { h with
    replicas := (Function.forall_update_iff σ.replicas fun _ x => x.Inv σ.log σ.committed).2
      ⟨hr, fun q _ => h.replicas q⟩ }

theorem Inv.step (h : σ.Inv) (hstep : σ.Step a σ') : σ'.Inv := by
  rw [Step] at hstep
  cases a with
  | append b =>
    obtain ⟨hadmits, ⟨⟩⟩ := Option.ite_none_right_eq_some.1 hstep
    refine h.setLog (h.log.concat hadmits.1 fun o o' hb => ?_) ?_ ?_
    · subst hb
      exact hadmits.2
    · rw [length_append]
      exact h.committed_le.trans (Nat.le_add_right _ _)
    · exact take_append_of_le_length h.committed_le
  -- only entries that are not committed are removed
  | truncate n =>
    obtain ⟨hle, ⟨⟩⟩ := Option.ite_none_right_eq_some.1 hstep
    refine h.setLog (h.log.of_isPrefix (List.take_prefix _ _)) ?_ ?_
    · rw [length_take]
      exact le_min hle h.committed_le
    · rw [take_take, min_eq_left hle]
  | commit n =>
    obtain ⟨hguard, ⟨⟩⟩ := Option.ite_none_right_eq_some.1 hstep
    exact ⟨h.log, hguard.2, fun r => (h.replicas r).mono hguard.1 rfl,
      fun s hs => (h.snapshots s hs).mono hguard.1 rfl⟩
  | apply r =>
    rw [next] at hstep
    split_ifs at hstep with hlt
    obtain ⟨b, hb, rfl⟩ := Option.map_eq_some_iff.1 hstep
    exact h.setReplica r ((h.replicas r).apply h.log hlt hb)
  | takeSnapshot r =>
    cases hstep
    obtain ⟨seen, -, happlied, hseen, hstate, -⟩ := h.replicas r
    exact { h with snapshots := forall_mem_concat.2 ⟨h.snapshots,
      seen, [], happlied, hseen, hstate, rfl, pairwise_singleton _ _⟩ }
  -- the replica goes back to what the snapshot has applied
  | restart r snapshot n =>
    obtain ⟨s, hs, hstep⟩ := Option.bind_eq_some_iff.1 hstep
    split_ifs at hstep with hle
    cases hstep
    obtain ⟨seen, starts, happlied, hseen⟩ := h.snapshots s (mem_of_getElem? hs)
    exact h.setReplica r ⟨seen, starts, hle.trans happlied, hseen⟩
  | registerReader r =>
    cases hstep
    exact h.setReplica r (h.replicas r).registerReader
  | unregisterReader r i =>
    cases hstep
    exact h.setReplica r ((h.replicas r).unregisterReader i)

variable {as : List (PartitionStep ι)}

theorem inv_of_run (hrun : Run Step create as σ) : σ.Inv :=
  Run.invariant (fun h hstep => h.step hstep) hrun inv_create

/-- What is committed stays in the log. -/
theorem committed_prefix_of_step {l : List CtpBatch} (hle : l.length ≤ σ.committed)
    (hpre : l <+: σ.log) (hstep : σ.Step a σ') : l.length ≤ σ'.committed ∧ l <+: σ'.log := by
  rw [Step] at hstep
  cases a with
  | append b =>
    rw [next] at hstep
    split_ifs at hstep
    cases hstep
    exact ⟨hle, hpre.trans (prefix_append _ _)⟩
  | truncate n =>
    obtain ⟨hn, ⟨⟩⟩ := Option.ite_none_right_eq_some.1 hstep
    exact ⟨hle, prefix_take_iff.2 ⟨hpre, hle.trans hn⟩⟩
  | commit n =>
    obtain ⟨hn, ⟨⟩⟩ := Option.ite_none_right_eq_some.1 hstep
    exact ⟨hle.trans hn.1, hpre⟩
  | apply r =>
    rw [next] at hstep
    split_ifs at hstep
    obtain ⟨b, -, rfl⟩ := Option.map_eq_some_iff.1 hstep
    exact ⟨hle, hpre⟩
  | takeSnapshot r | registerReader r | unregisterReader r i =>
    cases hstep
    exact ⟨hle, hpre⟩
  | restart r snapshot n =>
    obtain ⟨s, -, hstep⟩ := Option.bind_eq_some_iff.1 hstep
    split_ifs at hstep
    cases hstep
    exact ⟨hle, hpre⟩

theorem committed_prefix_of_run (hrun : Run Step σ as σ') : σ.log.take σ.committed <+: σ'.log :=
  (Run.invariant (P := fun τ : CtpPartition ι => (σ.log.take σ.committed).length ≤ τ.committed ∧
    σ.log.take σ.committed <+: τ.log) (fun h hstep => committed_prefix_of_step h.1 h.2 hstep) hrun
    ⟨length_take_le _ _, take_prefix _ _⟩).2

/-- A report is below the epochs of all batches above the offset up to which the replica could
    remove its log, then and later. -/
theorem lt_epoch_of_report (h : σ.Inv) (hrun : Run Step σ as σ') {r : ι} {x : Int}
    (hx : (σ.replicas r).estimateInactiveEpoch = some x) {o : Nat} {b : CtpBatch} {e : Int}
    (hb : σ'.log[o]? = some b) (he : b.epoch? = some e)
    (ho : (σ.replicas r).maxRemovableLocalLogOffset < o) : x < e := by
  have hinv' : σ'.Inv := Run.invariant (fun h hstep => h.step hstep) hrun h
  obtain ⟨n, hn, hreport, hremovable, -⟩ := (h.replicas r).report
  rw [hreport] at hx
  rw [hremovable] at ho
  have hpre : σ.log.take n <+: σ'.log :=
    (take_prefix_take_left hn).trans (committed_prefix_of_run hrun)
  exact estimateInactiveEpoch_lt hinv'.log hpre hx hb he ho

end CtpPartition

end Redpanda.CloudTopics
