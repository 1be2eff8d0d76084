import Redpanda.CloudTopics.CtpReplicas
import Redpanda.Lib.Except

/-!
# Level zero garbage collection

The objects whose epoch is at most the one that all cloud topic partitions have no more need for
are removed. Every replica reports its inactive epoch with the health reports of its node. The
largest epoch that a replica of a partition has reported is taken for the partition
(`getPartitionsMaxGcEpoch`), and the smallest one over the partitions for the collection
(`maxGcEligibleEpoch`).

A report is valid from then on for the batches that are not reconciled, and for the active readers
of the replica (`EpochReport.Protects`). It is not for readers at other replicas. These hold back
only the report of their own replica, which another replica outbids
(`EpochReport.exists_run_collected`). If the readers at other replicas have started above the
offset up to which the replica could remove its log (`EpochReport.Covers`), no object is
collected that is still needed (`EpochReport.not_collected`).

The partitions come with the revision of the controller at which they were listed. Errors of the
health monitor and of the listing end the collection, and are left out.
-/

namespace Redpanda.CloudTopics

open Lib List

variable {T : Type} [DecidableEq T]

/-- The status of a replica in a health report. -/
structure PartitionStatus (T : Type) where
  topic : T
  id : Nat
  cloudTopicMaxGcEligibleEpoch : Option Int

/-- The reported epochs by topic and partition. -/
abbrev PartitionsMaxGcEpoch (T : Type) := T → Option (Nat → Option Int)

/-- The larger epoch is kept. -/
def addStatus (m : PartitionsMaxGcEpoch T) (status : PartitionStatus T) : PartitionsMaxGcEpoch T :=
  match status.cloudTopicMaxGcEligibleEpoch with
  | none => m
  | some epoch =>
    let epochs := (m status.topic).getD fun _ => none
    let largest := match epochs status.id with
      | none => epoch
      | some other => max other epoch
    Function.update m status.topic (some (Function.update epochs status.id (some largest)))

/-- The epochs from the reports of all nodes. -/
def getPartitionsMaxGcEpoch (reports : List (List (PartitionStatus T))) : PartitionsMaxGcEpoch T :=
  reports.foldl (fun m report => report.foldl addStatus m) fun _ => none

/-- A partition without a reported epoch. -/
inductive EpochSourceError (T : Type) where
  | topicNotReported (topic : T)
  | partitionNotReported (topic : T) (id : Nat)
  deriving DecidableEq

/-- One topic may hold back the epoch. -/
def reduceTopic (gcEpochs : PartitionsMaxGcEpoch T) (result : Int) (topic : T × List Nat) :
    Except (EpochSourceError T) Int :=
  match gcEpochs topic.1 with
  | none => .error (.topicNotReported topic.1)
  | some epochs => topic.2.foldlM (fun result id =>
    match epochs id with
    | none => .error (.partitionNotReported topic.1 id)
    | some epoch => .ok (min result epoch)) result

/-- The largest epoch that may be collected. -/
def maxGcEligibleEpoch (snapRevision : Int) (partitions : List (T × List Nat))
    (gcEpochs : PartitionsMaxGcEpoch T) : Except (EpochSourceError T) (Option Int) :=
  if partitions.isEmpty then .ok none
  else (partitions.foldlM (reduceTopic gcEpochs) snapRevision).map some

/-- An object in the store. -/
structure ListBucketItem where
  id : ObjectId
  lastModified : Int
  deriving DecidableEq

/-- The objects of a page that are removed. -/
def doTryToCollect (maxGcEpoch maxGcBirthday : Int) (candidates : List ListBucketItem) :
    List ListBucketItem :=
  candidates.filter fun object => object.id.epoch ≤ maxGcEpoch ∧ object.lastModified ≤ maxGcBirthday

/-! ## The epoch of a collection -/

/-- The epoch of a partition is one that was reported. -/
def FromReports (statuses : List (PartitionStatus T)) (m : PartitionsMaxGcEpoch T) : Prop :=
  ∀ topic epochs id epoch, m topic = some epochs → epochs id = some epoch →
    ∃ status ∈ statuses, status.topic = topic ∧ status.id = id ∧
      status.cloudTopicMaxGcEligibleEpoch = some epoch

theorem FromReports.addStatus {statuses : List (PartitionStatus T)} {m : PartitionsMaxGcEpoch T}
    (h : FromReports statuses m) (status : PartitionStatus T) :
    FromReports (statuses ++ [status]) (addStatus m status) := by
  have hold : FromReports (statuses ++ [status]) m := fun topic epochs id epoch hm he => by
    obtain ⟨s, hs, hstatus⟩ := h topic epochs id epoch hm he
    exact ⟨s, mem_append_left _ hs, hstatus⟩
  rw [CloudTopics.addStatus]
  split
  · exact hold
  · rename_i epoch hepoch
    intro topic epochs id x hm he
    have hnew : status ∈ statuses ++ [status] := mem_concat_self
    rcases eq_or_ne topic status.topic with rfl | hne
    · rw [Function.update_self] at hm
      cases hm
      -- the epoch stored so far is from an earlier report, and the larger of the two is kept
      have hprev : ∀ y, ((m status.topic).getD fun _ => none) id = some y →
          ∃ s ∈ statuses ++ [status], s.topic = status.topic ∧ s.id = id ∧
            s.cloudTopicMaxGcEligibleEpoch = some y := fun y hy => by
        rcases htopic : m status.topic with _ | epochs <;> rw [htopic] at hy
        · cases hy
        · exact hold status.topic epochs id y htopic hy
      rcases eq_or_ne id status.id with rfl | hid
      · rw [Function.update_self] at he
        cases he
        split
        · exact ⟨status, hnew, rfl, rfl, hepoch⟩
        · rename_i other hother
          rcases max_choice other epoch with hmax | hmax
          · rw [hmax]
            exact hprev other hother
          · rw [hmax]
            exact ⟨status, hnew, rfl, rfl, hepoch⟩
      · rw [Function.update_of_ne hid] at he
        exact hprev x he
    · rw [Function.update_of_ne hne] at hm
      exact hold topic epochs id x hm he

theorem fromReports (reports : List (List (PartitionStatus T))) :
    FromReports reports.flatten (getPartitionsMaxGcEpoch reports) := by
  rw [getPartitionsMaxGcEpoch, ← foldl_flatten]
  induction reports.flatten using reverseRecOn with
  | nil => exact nofun
  | append_singleton statuses status ih =>
    rw [foldl_concat]
    exact ih.addStatus status

/-- The epoch is not above the one that was reported for a partition. -/
def LeReported (gcEpochs : PartitionsMaxGcEpoch T) (topic : T) (id : Nat) (result : Int) : Prop :=
  ∃ epochs epoch, gcEpochs topic = some epochs ∧ epochs id = some epoch ∧ result ≤ epoch

section

omit [DecidableEq T]

variable {gcEpochs : PartitionsMaxGcEpoch T} {topic : T × List Nat} {result result' : Int}

theorem LeReported.mono {topic : T} {id : Nat} (h : LeReported gcEpochs topic id result)
    (hle : result' ≤ result) : LeReported gcEpochs topic id result' := by
  obtain ⟨epochs, epoch, hepochs, hepoch, hr⟩ := h
  exact ⟨epochs, epoch, hepochs, hepoch, hle.trans hr⟩

/-- A loop that only lowers the epoch, to a bound for every element. -/
theorem le_of_foldlM {ε α : Type} {f : Int → α → Except ε Int} {Q : α → Int → Prop}
    (hf : ∀ {r a r'}, f r a = .ok r' → r' ≤ r ∧ Q a r')
    (hQ : ∀ {a r r'}, Q a r → r' ≤ r → Q a r') {l : List α}
    (h : l.foldlM f result = .ok result') : result' ≤ result ∧ ∀ a ∈ l, Q a result' := by
  induction l generalizing result with
  | nil =>
    cases h
    exact ⟨le_rfl, nofun⟩
  | cons a l ih =>
    rw [foldlM_cons] at h
    obtain ⟨r, hr, h⟩ := Except.bind_eq_ok.1 h
    obtain ⟨hle, hall⟩ := ih h
    obtain ⟨hr, ha⟩ := hf hr
    exact ⟨hle.trans hr, forall_mem_cons.2 ⟨hQ ha hle, hall⟩⟩

theorem le_of_reduceTopic (h : reduceTopic gcEpochs result topic = .ok result') :
    result' ≤ result ∧ ∀ id ∈ topic.2, LeReported gcEpochs topic.1 id result' := by
  rw [reduceTopic] at h
  split at h
  · cases h
  · rename_i epochs hepochs
    refine le_of_foldlM (fun {r id r'} hr => ?_) .mono h
    rcases hid : epochs id with _ | epoch <;> rw [hid] at hr <;> cases hr
    exact ⟨min_le_left _ _, epochs, epoch, hepochs, hid, min_le_right _ _⟩

/-- The epoch of a collection is not above that of any partition. -/
theorem le_of_maxGcEligibleEpoch {snapRevision : Int} {partitions : List (T × List Nat)}
    (h : maxGcEligibleEpoch snapRevision partitions gcEpochs = .ok (some result)) :
    ∀ topic ∈ partitions, ∀ id ∈ topic.2, LeReported gcEpochs topic.1 id result := by
  rw [maxGcEligibleEpoch] at h
  split_ifs at h
  · cases h
  · rcases hresult : partitions.foldlM (reduceTopic gcEpochs) snapRevision with err | r <;>
      rw [hresult] at h <;> cases h
    exact (le_of_foldlM le_of_reduceTopic (fun h hle id hid => (h id hid).mono hle) hresult).2

end

/-! ## Reports -/

/-- A report, with the state of the partition when it is made. -/
structure EpochReport (T ι : Type) where
  topic : T
  id : Nat
  replica : ι
  state : CtpPartition ι

namespace EpochReport

variable {ι : Type} (report : EpochReport T ι)

/-- What is reported. -/
def status : PartitionStatus T :=
  ⟨report.topic, report.id, (report.state.replicas report.replica).estimateInactiveEpoch⟩

/-- The offsets of the batches for which the report is to be valid: those above the reconciled
    offset, those that are appended later, and those above the offset from which a reader has
    started. -/
def Protects (o : Nat) : Prop :=
  (report.state.replicas report.replica).state.getMaxCollectibleOffset < o ∨
    report.state.committed ≤ o ∨ ∃ q, ∃ d ∈ (report.state.replicas q).activeReaders, d.lrlo < o

/-- The readers at other replicas have not started before the offset up to which the replica could
    remove its log. -/
def Covers : Prop :=
  ∀ q, q ≠ report.replica → ∀ d ∈ (report.state.replicas q).activeReaders,
    (report.state.replicas report.replica).maxRemovableLocalLogOffset ≤ d.lrlo

variable [DecidableEq ι]

/-- The report is made in the history of a partition. -/
def Made (report : EpochReport T ι) (σ : CtpPartition ι) : Prop :=
  ∃ as bs, Run CtpPartition.Step .create as report.state ∧ Run CtpPartition.Step report.state bs σ

omit [DecidableEq T] in
/-- The reported epoch is below those of the batches that the report protects. -/
theorem lt_epoch {report : EpochReport T ι} {σ : CtpPartition ι} (hmade : report.Made σ)
    (hcovers : report.Covers) {x : Int} (hx : report.status.cloudTopicMaxGcEligibleEpoch = some x)
    {o : Nat} {id : ObjectId} (hb : σ.log[o]? = some (.placeholder id)) (ho : report.Protects o) :
    x < id.epoch := by
  obtain ⟨as, bs, hbefore, hafter⟩ := hmade
  have hinv := CtpPartition.inv_of_run hbefore
  refine CtpPartition.lt_epoch_of_report hinv hafter hx hb rfl ?_
  obtain ⟨n, -, -, -, hstate, hreaders⟩ := (hinv.replicas report.replica).report
  rcases ho with ho | ho | ⟨q, d, hd, ho⟩
  · exact hstate.trans_lt ho
  · exact (hinv.maxRemovable_lt report.replica).trans_le (Int.ofNat_le.2 ho)
  · rcases eq_or_ne q report.replica with rfl | hne
    · exact (hreaders d hd).trans_lt ho
    · exact (hcovers q hne d hd).trans_lt ho

/-- Every report is below the epochs of the batches that it protects, and no object that is
    collected with the reports belongs to a batch that the deciding report of its partition
    protects. -/
theorem not_collected {reports : List (List (EpochReport T ι))} {σ : T → Nat → CtpPartition ι}
    (hmade : ∀ node ∈ reports, ∀ report ∈ node, report.Made (σ report.topic report.id))
    (hcovers : ∀ node ∈ reports, ∀ report ∈ node, report.Covers) :
    (∀ node ∈ reports, ∀ report ∈ node, ∀ x,
      report.status.cloudTopicMaxGcEligibleEpoch = some x → ∀ (o : Nat) (id : ObjectId),
        (σ report.topic report.id).log[o]? = some (.placeholder id) → report.Protects o →
          x < id.epoch) ∧
      ∀ (snapRevision epoch : Int) (partitions : List (T × List Nat)),
        maxGcEligibleEpoch snapRevision partitions
          (getPartitionsMaxGcEpoch (reports.map (·.map status))) = .ok (some epoch) →
        ∀ (birthday : Int) (candidates : List ListBucketItem),
        ∀ item ∈ doTryToCollect epoch birthday candidates,
        ∀ topic ∈ partitions, ∀ id ∈ topic.2, ∃ node ∈ reports, ∃ report ∈ node,
          report.topic = topic.1 ∧ report.id = id ∧ ∀ (o : Nat) (object : ObjectId),
            (σ topic.1 id).log[o]? = some (.placeholder object) → report.Protects o →
              object ≠ item.id := by
  refine ⟨fun node hnode report hreport x hx o id hb ho =>
    lt_epoch (hmade node hnode report hreport) (hcovers node hnode report hreport) hx hb ho, ?_⟩
  intro snapRevision epoch partitions hepoch birthday candidates item hitem topic htopic id hid
  obtain ⟨epochs, x, hepochs, hx, hle⟩ := le_of_maxGcEligibleEpoch hepoch topic htopic id hid
  obtain ⟨status, hstatus, htopic', hid', hreported⟩ :=
    fromReports _ topic.1 epochs id x hepochs hx
  obtain ⟨statuses, hstatuses, hstatus⟩ := mem_flatten.1 hstatus
  obtain ⟨node, hnode, rfl⟩ := mem_map.1 hstatuses
  obtain ⟨report, hreport, rfl⟩ := mem_map.1 hstatus
  refine ⟨node, hnode, report, hreport, htopic', hid', fun o object hb ho heq => ?_⟩
  have hmade' := hmade node hnode report hreport
  rw [show report.topic = topic.1 from htopic', show report.id = id from hid'] at hmade'
  have hlt := lt_epoch hmade' (hcovers node hnode report hreport) hreported hb ho
  -- the object is not above the epoch of the collection
  have hcollected := (mem_filter.1 hitem).2
  rw [decide_eq_true_iff] at hcollected
  rw [heq] at hlt
  exact absurd (hcollected.1.trans hle) (not_le.2 hlt)

/-- Both replicas have applied a batch when a reader starts at one of them. Later batches move the
    window, and are reconciled at the other one. -/
def readerRun : List (PartitionStep Bool) :=
  [.append (.placeholder ⟨5, 0⟩), .commit 1, .apply true, .apply false, .registerReader true,
    .append (.placeholder ⟨7, 1⟩), .append (.placeholder ⟨9, 2⟩),
    .append (.advanceReconciledOffset 2 2), .commit 4, .apply false, .apply false, .apply false]

/-- The reports of the two replicas of the only partition. -/
def readerReports (σ : CtpPartition Bool) : List (List (EpochReport Unit Bool)) :=
  [[⟨(), 0, true, σ⟩], [⟨(), 0, false, σ⟩]]

/-- The object of the first batch is collected, while the reader is still active. -/
theorem exists_run_collected :
    ∃ σ : CtpPartition Bool, Run CtpPartition.Step .create readerRun σ ∧
      σ.log[0]? = some (.placeholder ⟨5, 0⟩) ∧
      (∃ d ∈ (σ.replicas true).activeReaders, d.lrlo < 0) ∧
      (σ.replicas false).estimateInactiveEpoch = some 6 ∧
      maxGcEligibleEpoch 100 [((), [0])]
        (getPartitionsMaxGcEpoch ((readerReports σ).map (·.map status))) = .ok (some 6) ∧
      ⟨⟨5, 0⟩, 0⟩ ∈ doTryToCollect 6 1000 [⟨⟨5, 0⟩, 0⟩] := by
  have h : (readerRun.foldlM CtpPartition.next .create).map (fun σ =>
      (σ.log[0]?, (σ.replicas true).activeReaders, (σ.replicas false).estimateInactiveEpoch)) =
      some (some (.placeholder ⟨5, 0⟩), [⟨some 4, -2 ^ 63⟩], some 6) := by decide
  obtain ⟨σ, hrun, hσ⟩ := Run.exists_of_map_foldlM h
  obtain ⟨hlog, hσ⟩ := Prod.mk.inj hσ
  obtain ⟨hreaders, hreport⟩ := Prod.mk.inj hσ
  have hheld : (σ.replicas true).estimateInactiveEpoch = some 4 := by
    rw [CtpReplica.estimateInactiveEpoch, hreaders]
  have hstatus : (readerReports σ).map (·.map status) =
      [[⟨(), 0, some 4⟩], [⟨(), 0, some 6⟩]] := by
    simp only [readerReports, map_cons, map_nil, status, hheld, hreport]
  refine ⟨σ, hrun, hlog, ⟨_, hreaders ▸ mem_cons_self, by decide⟩, hreport, ?_,
    by decide⟩
  rw [hstatus]
  rfl

/-- Without the reader, and a restart from a snapshot that is newer than the batches that follow. -/
def restartRun : List (PartitionStep Bool) :=
  [.append (.placeholder ⟨5, 0⟩), .append (.placeholder ⟨7, 1⟩), .append (.placeholder ⟨9, 2⟩),
    .append (.advanceReconciledOffset 2 2), .commit 4, .apply true, .apply true, .apply true,
    .apply true, .takeSnapshot true, .restart false 1 1, .apply false, .registerReader false,
    .append (.placeholder ⟨8, 3⟩)]

theorem not_collected_restart :
    ∃ σ : CtpPartition Bool, σ.log[4]? = some (.placeholder ⟨8, 3⟩) ∧
      (∀ node ∈ readerReports σ, ∀ report ∈ node, report.Made σ ∧ report.Covers) ∧
      (∀ node ∈ readerReports σ, ∀ report ∈ node, ∀ x,
        report.status.cloudTopicMaxGcEligibleEpoch = some x → ∀ (o : Nat) (id : ObjectId),
          σ.log[o]? = some (.placeholder id) → report.Protects o → x < id.epoch) := by
  have h : (restartRun.foldlM CtpPartition.next .create).map (fun σ =>
      (σ.log[4]?, decide ((σ.replicas true).activeReaders = []),
        decide (∀ d ∈ (σ.replicas false).activeReaders,
          (σ.replicas true).maxRemovableLocalLogOffset ≤ d.lrlo))) =
      some (some (.placeholder ⟨8, 3⟩), true, true) := by decide
  obtain ⟨σ, hrun, hσ⟩ := Run.exists_of_map_foldlM h
  obtain ⟨hlog, hσ⟩ := Prod.mk.inj hσ
  obtain ⟨htrue, hfalse⟩ := Prod.mk.inj hσ
  have hreports : ∀ node ∈ readerReports σ, ∀ report ∈ node, report.Made σ ∧ report.Covers := by
    intro node hnode report hreport
    simp only [readerReports, mem_cons, not_mem_nil, or_false] at hnode
    rcases hnode with rfl | rfl
    · rw [mem_singleton.1 hreport]
      refine ⟨⟨restartRun, [], hrun, .nil _⟩, fun q hq d hd => ?_⟩
      obtain rfl : q = false := Bool.eq_false_iff.2 hq
      exact of_decide_eq_true hfalse d hd
    · rw [mem_singleton.1 hreport]
      refine ⟨⟨restartRun, [], hrun, .nil _⟩, fun q hq d hd => ?_⟩
      obtain rfl : q = true := Bool.ne_false_iff.1 hq
      rw [of_decide_eq_true htrue] at hd
      cases hd
  exact ⟨σ, hlog, hreports, (not_collected (σ := fun _ _ => σ)
    (fun node hnode report hreport => (hreports node hnode report hreport).1)
    fun node hnode report hreport => (hreports node hnode report hreport).2).1⟩

end EpochReport

end Redpanda.CloudTopics
