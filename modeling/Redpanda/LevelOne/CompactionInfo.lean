import Redpanda.LevelOne.DirtyRanges
import Redpanda.LevelOne.References

/-!
# Compaction info of the in-memory metastore

What `simple_metastore` tells about the compaction of a partition, and that its updates do to
the log of a partition what `CompactedLog.Step` says (`State.Ordered.step`), as long as the
ranges cleaned by a compaction touch the log (`State.CleansLog`).
-/

namespace Redpanda.LevelOne

open Lib Model Lib.Except List

/-- Why there is no answer. -/
inductive MetastoreErrc
  | missingNtp
  | outOfRange
  deriving DecidableEq

structure CompactionInfoResponse where
  dirtyRatio : Rat
  earliestDirtyTs : Option Int
  offsetsResponse : CompactionOffsetsResponse
  compactionEpoch : Int
  startOffset : Int

namespace PartitionState

/-- The cleaned ranges, none if there was no compaction. -/
def cleanedRanges (p : PartitionState) : OffsetIntervalSet :=
  (p.compactionState.map (·.cleanedRanges)).getD .empty

/-- The log of a partition, as far as compactions are concerned. -/
def log (p : PartitionState) : CompactedLog :=
  ⟨p.startOffset, p.nextOffset, p.cleanedRanges⟩

end PartitionState

namespace State

variable (s : State) (tp : TopicIdPartition)

/-- Reading the state of a partition, which has to be there. -/
def getPartition : Except MetastoreErrc PartitionState :=
  match s.partitionState tp with
  | some p => .ok p
  | none => .error .missingNtp

/-- What is to be compacted up to a bound. -/
def getCompactionOffsets (upperBound : Int) : Except MetastoreErrc CompactionOffsetsResponse := do
  let p ← s.getPartition tp
  return compactionOffsets p.startOffset p.nextOffset p.compactionState upperBound

/-- `get_dirty_ratio`. All data is dirty before the first compaction. -/
def getDirtyRatio : Except MetastoreErrc Rat := do
  let p ← s.getPartition tp
  return match p.compactionState with
    | none => 1
    | some state => dirtyRatioOf p.startOffset state.cleanedRanges p.extents.rows

def getEarliestDirtyTs : Except MetastoreErrc (Option Int) := do
  let p ← s.getPartition tp
  return earliestDirtyTsOf p.startOffset p.cleanedRanges p.extents.rows

def getCompactionEpoch : Except MetastoreErrc Int := do
  let p ← s.getPartition tp
  return p.compactionEpoch

/-- All that a compaction asks for. -/
def getCompactionInfo (upperBound : Int) : Except MetastoreErrc CompactionInfoResponse := do
  let dirtyRatio ← s.getDirtyRatio tp
  let earliestDirtyTs ← s.getEarliestDirtyTs tp
  let offsetsResponse ← s.getCompactionOffsets tp upperBound
  let compactionEpoch ← s.getCompactionEpoch tp
  let p ← s.getPartition tp
  return { dirtyRatio, earliestDirtyTs, offsetsResponse, compactionEpoch,
           startOffset := p.startOffset }

end State

/-! ## The log of a partition -/

/-- The offsets of an object are 64 bit integers. -/
def NewObject.Fits (o : NewObject) : Prop :=
  ∀ p ∈ o.extentMetas.entries, p.2.lastOffset ≤ Offset.max
  deriving Decidable

namespace State

/-- The log of a partition that is not there is empty. -/
def compactedLog (s : State) (t : TopicIdPartition) : CompactedLog :=
  (s.partition t).log

/-- The ranges cleaned by a compaction touch the log of their partition. -/
def CleansLog (s : State) : StmUpdate → Prop
  | .addObjects u _ => ∀ o ∈ u.newObjects, o.Fits
  | .replaceObjects u _ => (∀ o ∈ u.newObjects, o.Fits) ∧
      ∀ p ∈ u.compactionUpdates.entries, ∀ r ∈ p.2.newCleanedRanges,
        (s.compactedLog p.1).Touches r.baseOffset r.lastOffset
  | _ => True

instance (s : State) : DecidablePred s.CleansLog := fun u => by
  induction u using StmUpdate.casesOn <;> unfold CleansLog <;> infer_instance

end State

/-- The offsets of an extent are in order, and none is beyond the largest one. -/
def Extent.Ordered (e : Extent) : Prop :=
  e.baseOffset ≤ e.lastOffset ∧ e.lastOffset ≤ Offset.max

theorem lastOffset_le_of_fits {objects : List NewObject} (h : ∀ o ∈ objects, NewObject.Fits o)
    {p : SortedExtents.Entry}
    (hp : p ∈ (collectExtents objects).entries) {e : Extent} (he : e ∈ p.2) :
    e.lastOffset ≤ Offset.max := by
  obtain ⟨o, ho, m, hm, rfl⟩ := exists_of_mem_collectExtents hp he
  exact h o ho ⟨p.1, m⟩ hm

/-- Extents that are in order are ordered by their base offsets. -/
theorem Extent.baseOffset_le {e e' : Extent} (h : e ≤ e') : e.baseOffset ≤ e'.baseOffset := by
  rcases Prod.Lex.le_iff.1 (show e.fields ≤ e'.fields from h) with h | h
  · exact h.le
  · exact h.1.le

/-- Extents that pass the check of a request do not end before they begin, and do not begin
    below the offset from which they are checked. -/
theorem le_of_checkExtents {tidp : TopicIdPartition} {next : Int} {extents : List Extent}
    (h : checkExtents tidp next extents = .ok ()) :
    ∀ e ∈ extents, next ≤ e.baseOffset ∧ e.baseOffset ≤ e.lastOffset := by
  induction extents generalizing next with
  | nil => exact nofun
  | cons e extents ih =>
    rw [checkExtents, ite_error_eq_ok, ite_error_eq_ok, not_lt, not_not] at h
    obtain ⟨hle, heq, h⟩ := h
    refine forall_mem_cons.2 ⟨⟨heq.ge, hle⟩, fun e' he' => ⟨?_, (ih h e' he').2⟩⟩
    calc
      next = e.baseOffset := heq.symm
      _ ≤ e.lastOffset := hle
      _ ≤ nextOffset e.lastOffset := le_nextOffset _
      _ ≤ e'.baseOffset := (ih h e' he').1

variable {p : PartitionState}

namespace PartitionState

variable {extents : List Extent}

theorem mem_insertExtents {e : Extent} :
    e ∈ (p.insertExtents extents).extents ↔ e ∈ extents ∨ e ∈ p.extents :=
  OrderedStore.mem_foldl_put Function.injective_id

/-- Adding extents moves the end of the log up. -/
theorem log_append (hp : ∀ e ∈ p.extents, e.Ordered) (hextents : ∀ e ∈ extents, e.Ordered)
    {first : Extent} (hfirst : first ∈ extents) (hbase : first.baseOffset = p.nextOffset)
    (terms : List TermStart) :
    p.log.Step (((p.insertExtents extents).extendNextOffset).appendTerms terms).log := by
  have hmem : first ∈ (p.insertExtents extents).extents := mem_insertExtents.2 (.inl hfirst)
  rcases hlast : (p.insertExtents extents).extents.seekToLast with - | e
  · exact absurd hmem (OrderedStore.seekToLast_eq_none.1 hlast first)
  obtain ⟨he, hle⟩ := OrderedStore.seekToLast_eq_some.1 hlast
  have hordered : e.Ordered := (mem_insertExtents.1 he).elim (hextents e) (hp e)
  have hnext : p.nextOffset ≤ Model.nextOffset e.lastOffset := calc
    p.nextOffset = first.baseOffset := hbase.symm
    _ ≤ e.baseOffset := Extent.baseOffset_le (hle first hmem)
    _ ≤ e.lastOffset := hordered.1
    _ ≤ Model.nextOffset e.lastOffset := le_nextOffset _
  have hlog : (((p.insertExtents extents).extendNextOffset).appendTerms terms).log =
      { p.log with nextOffset := Model.nextOffset e.lastOffset } := by
    rw [extendNextOffset, hlast]
    rfl
  rw [hlog]
  exact .append hnext (nextOffset_le_max hordered.2)

end PartitionState

variable {s s' : State} {t : TopicIdPartition}

namespace State

/-- The extents of all partitions are ordered. -/
def Ordered (s : State) : Prop :=
  ∀ t, ∀ e ∈ (s.partition t).extents, e.Ordered

/-- What an update does to the logs is allowed there, and extents are ordered. -/
structure Steps (s s' : State) : Prop where
  ordered : s'.Ordered
  step : ∀ t, (s.compactedLog t).Step (s'.compactedLog t)

/-- A state with the same logs, in which extents are ordered. -/
structure SameLogs (s s' : State) : Prop where
  ordered : s'.Ordered
  log_eq : ∀ t, s'.compactedLog t = s.compactedLog t

theorem partitionState_insert_ne {t' : TopicIdPartition} (h : t' ≠ t) (p : PartitionState)
    (objects : ObjectEntries) :
    (⟨s.partitions.insert t p, objects⟩ : State).partitionState t' = s.partitionState t' :=
  AList.lookup_insert_ne h

variable {u : AddObjectsUpdate} {s₀ : State} {q : SortedExtents.Entry}

/-- A request leaves a partition as it is, or extends it. -/
def Extends (s : State) (u : AddObjectsUpdate) (t : TopicIdPartition)
    (p : Option PartitionState) : Prop :=
  p = s.partitionState t ∨ ∃ extents terms,
    ⟨t, extents⟩ ∈ (collectExtents u.newObjects).entries ∧ s.IsAligned ⟨t, extents⟩ ∧
    p = some ((((s.partition t).insertExtents extents).extendNextOffset).appendTerms terms)

theorem partition_eq_of_partitionState_eq (h : s'.partitionState t = s.partitionState t) :
    s'.partition t = s.partition t := by
  rw [partition, partition, h]

/-- New extents are appended to their partitions. -/
theorem extends_addObjects {now : Int} (hs' : u.apply s now = .ok s') (t : TopicIdPartition) :
    s.Extends u t (s'.partitionState t) := by
  obtain ⟨_, -, hs'⟩ := bind_eq_ok.1 hs'
  -- the partitions that are still to come are as they were
  refine ((foldlM_invariant (fun l (s' : State) =>
    l.NodupKeys ∧ l ⊆ (collectExtents u.newObjects).entries ∧
      (∀ t ∈ l.keys, s'.partitionState t = s.partitionState t) ∧
      ∀ t, s.Extends u t (s'.partitionState t)) ?_ hs'
    ⟨(collectExtents u.newObjects).nodupKeys, Subset.refl _, fun _ _ => rfl,
      fun _ => .inl rfl⟩).2.2.2 t)
  rintro q l s₁ s₂ ⟨hnodup, hsub, hrest, hdone⟩ hs₂
  rw [nodupKeys_cons] at hnodup
  rw [cons_subset] at hsub
  rw [keys_cons, forall_mem_cons] at hrest
  have hnext : s₁.expectedNext q.1 = s.expectedNext q.1 := by
    simp only [expectedNext, hrest.1]
  have haligned : s₁.IsAligned q ↔ s.IsAligned q := by
    rw [IsAligned, hnext]
    exact Iff.rfl
  split_ifs at hs₂ with hq
  · rcases hterms : u.newTerms.lookup q.1 with - | terms
    · rw [hterms] at hs₂
      exact nomatch hs₂
    rw [hterms] at hs₂
    cases hs₂
    refine ⟨hnodup.2, hsub.2, fun t ht => ?_, fun t => ?_⟩
    · have hne : t ≠ q.1 := fun heq => hnodup.1 (heq ▸ ht)
      rw [partitionState_insert_ne hne]
      exact hrest.2 t ht
    · rcases eq_or_ne t q.1 with rfl | hne
      · refine .inr ⟨q.2, terms, hsub.1, haligned.1 hq, ?_⟩
        rw [← partition_eq_of_partitionState_eq hrest.1]
        exact AList.lookup_insert _
      · rw [partitionState_insert_ne hne]
        exact hdone t
  · cases hs₂
    exact ⟨hnodup.2, hsub.2, hrest.2, hdone⟩

/-- What is checked about the extents of a request that are aligned. -/
theorem checkExtents_of_canApply {dropped : List (TopicIdPartition × Int)}
    (h : u.canApply s = .ok dropped)
    (hq : q ∈ (collectExtents u.newObjects).entries) (haligned : s.IsAligned q) :
    checkExtents q.1 (s.expectedNext q.1) q.2 = .ok () := by
  rw [AddObjectsUpdate.canApply, ite_error_eq_ok, ite_error_eq_ok] at h
  obtain ⟨⟨⟩, -, h⟩ := bind_eq_ok.1 h.2.2
  obtain ⟨⟨⟩, hchecks, -⟩ := bind_eq_ok.1 h
  have hcheck := forM_eq_ok.1 hchecks q hq
  rw [checkNewExtents, if_pos haligned] at hcheck
  obtain ⟨⟨⟩, hcheck, -⟩ := bind_eq_ok.1 hcheck
  exact hcheck

theorem Steps.of_forall (h : ∀ t, (∀ e ∈ (s'.partition t).extents, e.Ordered) ∧
    (s.compactedLog t).Step (s'.compactedLog t)) : s.Steps s' :=
  ⟨fun t => (h t).1, fun t => (h t).2⟩

/-- A partition that is not there begins at its default. -/
theorem expectedNext_eq_nextOffset (s : State) (t : TopicIdPartition) :
    s.expectedNext t = (s.partition t).nextOffset := by
  rw [expectedNext, partition]
  rcases s.partitionState t with - | p <;> rfl

/-- Objects that are added only make logs longer. -/
theorem Ordered.addObjects (h : s.Ordered) {now : Int} (hfits : ∀ o ∈ u.newObjects, o.Fits)
    (hs' : u.apply s now = .ok s') : s.Steps s' := by
  have hpartition := extends_addObjects hs'
  obtain ⟨dropped, hallowed, -⟩ := bind_eq_ok.1 hs'
  refine .of_forall fun t => ?_
  rcases hpartition t with heq | ⟨extents, terms, hq, haligned, heq⟩
  · rw [compactedLog, compactedLog, partition_eq_of_partitionState_eq heq]
    exact ⟨h t, .refl⟩
  have hcheck := checkExtents_of_canApply hallowed hq haligned
  have hextents : ∀ e ∈ extents, e.Ordered := fun e he =>
    ⟨(le_of_checkExtents hcheck e he).2, lastOffset_le_of_fits hfits hq he⟩
  have hs't : s'.partition t =
      ((((s.partition t).insertExtents extents).extendNextOffset).appendTerms terms) := by
    rw [partition, heq]
    rfl
  obtain ⟨first, hfirst, hbase⟩ := (Option.any_eq_true _ _).1 haligned
  rw [decide_eq_true_eq, expectedNext_eq_nextOffset] at hbase
  rw [compactedLog, compactedLog, hs't]
  refine ⟨fun e he => ?_, PartitionState.log_append (h t) hextents (mem_of_head? hfirst)
    hbase terms⟩
  have he : e ∈ ((s.partition t).insertExtents extents).extents := by
    rwa [← PartitionState.extents_extendNextOffset]
  exact (PartitionState.mem_insertExtents.1 he).elim (hextents e) (h t e)

theorem Ordered.sameLogs (h : s.Ordered) (objects : ObjectEntries) :
    s.SameLogs { s with objects } :=
  ⟨h, fun _ => rfl⟩

theorem Ordered.insert (h : s.Ordered) (hp : ∀ e ∈ p.extents, e.Ordered)
    (objects : ObjectEntries) : Ordered ⟨s.partitions.insert t p, objects⟩ :=
  forall_partition_insert (P := fun _ p => ∀ e ∈ p.extents, e.Ordered) hp fun t _ => h t

variable (h : s₀.SameLogs s)

include h

/-- Changing the extents of a partition. -/
theorem SameLogs.insert
    (hlog : p.log = (s.partition t).log) (hp : ∀ e ∈ p.extents, e.Ordered) (objects : ObjectEntries) :
    s₀.SameLogs ⟨s.partitions.insert t p, objects⟩ where
  ordered := h.ordered.insert hp objects
  log_eq := forall_partition_insert (P := fun t p => p.log = s₀.compactedLog t)
    (hlog.trans (h.log_eq t)) fun t _ => h.log_eq t

/-- Replacing extents is not seen in the logs. -/
theorem SameLogs.replaceRange {i : Interval} (hs' : s.replaceRange t i = .ok s') :
    s₀.SameLogs s' := by
  obtain ⟨baseIt, lastIt, rfl⟩ := replaceRange_eq_ok hs'
  refine h.insert ?_ (fun e he => ?_) _
  · rfl
  · exact h.ordered t e (mem_filter.1 he).1

theorem SameLogs.insertExtents {extents : List Extent}
    (hextents : ∀ e ∈ extents, e.Ordered) : s₀.SameLogs (s.insertExtents t extents) := by
  refine h.insert ?_ (fun e he => ?_) _
  · rfl
  · exact (PartitionState.mem_insertExtents.1 he).elim (hextents e) (h.ordered t e)

omit h in
/-- The extents of a request that is accepted are ordered. -/
theorem ordered_of_canApply {u : ReplaceObjectsUpdate} (h : u.canApply s = .ok ())
    (hfits : ∀ o ∈ u.newObjects, o.Fits)
    (hq : q ∈ (collectExtents u.newObjects).entries) : ∀ e ∈ q.2, e.Ordered := by
  rw [ReplaceObjectsUpdate.canApply, ite_error_eq_ok] at h
  obtain ⟨⟨⟩, -, h⟩ := bind_eq_ok.1 h.2
  obtain ⟨⟨⟩, hinverted, -⟩ := bind_eq_ok.1 h
  intro e he
  have hle := forM_eq_ok.1 (forM_eq_ok.1 hinverted q hq) e he
  rw [ite_error_eq_ok, not_lt] at hle
  exact ⟨hle.1, lastOffset_le_of_fits hfits hq he⟩

theorem SameLogs.removeExtentsBelowStartOffset {rounds : Nat}
    (hs' : s.removeExtentsBelowStartOffset rounds t = .ok s') : s₀.SameLogs s' := by
  obtain ⟨-, rfl⟩ := removeExtentsBelowStartOffset_eq_ok hs'
  refine h.insert ?_ (fun e he => ?_) _
  · rfl
  · exact h.ordered t e (mem_filter.1 he).1

end State

namespace CompactionState

theorem cleanedRanges_foldl {α : Type*} {f : CompactionState → α → CompactionState}
    {g : OffsetIntervalSet → α → OffsetIntervalSet}
    (h : ∀ c a, (f c a).cleanedRanges = g c.cleanedRanges a) (l : List α) (c : CompactionState) :
    (l.foldl f c).cleanedRanges = l.foldl g c.cleanedRanges :=
  (foldl_hom cleanedRanges fun c a => (h c a).symm).symm

theorem cleanedRanges_add (c : CompactionState) (r : TombstoneRange) :
    (c.add r).1.cleanedRanges = c.cleanedRanges := by
  rw [add]
  split_ifs <;> rfl

theorem cleanedRanges_eraseContiguousRangeWithTombstones (c : CompactionState) (base last : Int) :
    (c.eraseContiguousRangeWithTombstones base last).1.cleanedRanges = c.cleanedRanges := by
  rw [eraseContiguousRangeWithTombstones]
  split <;> rfl

end CompactionState

/-- Cutting the cleaned ranges, if there are any. -/
theorem PartitionState.log_truncate (p : PartitionState) (termStarts : BtreeSet TermStart)
    (start : Int) :
    log { p with
      termStarts
      compactionState := p.compactionState.map (·.truncateWithNewStartOffset start) } =
      { p.log with cleaned := OffsetIntervalSet.truncateWithNewStartOffset p.log.cleaned start } := by
  rw [log, log, cleanedRanges, cleanedRanges]
  rcases p.compactionState with - | state <;> rfl

/-- A compaction adds its cleaned ranges, whatever it does about tombstones. -/
theorem PartitionState.log_compact (p : PartitionState) (update : CompactionStateUpdate) :
    (p.compact update).log = p.log.clean update.newCleanedRanges := by
  have hstate : (p.compactionState.getD .empty).cleanedRanges = p.cleanedRanges := by
    rw [cleanedRanges]
    rcases p.compactionState with - | state <;> rfl
  have hcleaned : (p.compact update).cleanedRanges =
      update.newCleanedRanges.foldl insertCleaned p.cleanedRanges := by
    rw [← hstate]
    refine (CompactionState.cleanedRanges_foldl (g := fun cleaned _ => cleaned)
      (fun state r => state.cleanedRanges_eraseContiguousRangeWithTombstones _ _) _ _).trans ?_
    rw [foldl_fixed]
    refine CompactionState.cleanedRanges_foldl (fun state r => ?_) _ _
    split_ifs
    · exact CompactionState.cleanedRanges_add _ _
    · rfl
  rw [log, hcleaned]
  rfl

namespace State

variable {u : SetStartOffsetUpdate}

/-- Compactions clean ranges of the logs. -/
theorem Ordered.replaceObjects (h : s.Ordered) {u : ReplaceObjectsUpdate} {now : Int}
    (hcleans : s.CleansLog (.replaceObjects u now)) (hs' : u.apply s now = .ok s') :
    s.Steps s' := by
  obtain ⟨⟨⟩, hallowed, hs'⟩ := bind_eq_ok.1 hs'
  obtain ⟨intervals, -, hs'⟩ := bind_eq_ok.1 hs'
  obtain ⟨s₁, hs₁, hs'⟩ := bind_eq_ok.1 hs'
  obtain ⟨s₃, hs₃, hs'⟩ := bind_eq_ok.1 hs'
  cases hs'
  have h₁ : s.SameLogs s₁ := by
    refine foldlM_invariant (fun _ (s₁ : State) => s.SameLogs s₁) ?_ hs₁ (h.sameLogs _)
    intro p l s₁ s₂ h hs₂
    exact foldlM_invariant (fun _ (s₁ : State) => s.SameLogs s₁)
      (fun h hs₂ => h.replaceRange hs₂) hs₂ h
  have h₂ := foldl_invariant (fun l (s₁ : State) => s.SameLogs s₁ ∧
    l ⊆ (collectExtents u.newObjects).entries) (f := fun s q => s.insertExtents q.1 q.2)
    (fun {q l s₁} h => by
      rw [cons_subset] at h
      exact ⟨h.1.insertExtents (ordered_of_canApply hallowed hcleans.1 h.2.1), h.2.2⟩)
    ⟨h₁, Subset.refl _⟩
  have h₃ : s.SameLogs s₃ := foldlM_invariant (fun _ (s₁ : State) => s.SameLogs s₁)
    (fun h hs₂ => h.removeExtentsBelowStartOffset hs₂) hs₃ h₂.1
  -- the partitions that are still to be compacted are as they were
  refine (foldl_invariant (fun l (s₁ : State) => s.Steps s₁ ∧ l.NodupKeys ∧
    l ⊆ u.compactionUpdates.entries ∧ ∀ t ∈ l.keys, s₁.compactedLog t = s.compactedLog t) ?_
    ⟨⟨h₃.ordered, fun t => ?_⟩, u.compactionUpdates.nodupKeys, Subset.refl _,
      fun t _ => h₃.log_eq t⟩).1
  · rintro q l s₁ ⟨⟨hordered, hstep⟩, hnodup, hsub, hrest⟩
    rw [nodupKeys_cons] at hnodup
    rw [cons_subset] at hsub
    rw [keys_cons, forall_mem_cons] at hrest
    refine ⟨⟨hordered.insert ?_ _, forall_partition_insert
      (P := fun t p => (s.compactedLog t).Step p.log) ?_ fun t _ => hstep t⟩, hnodup.2, hsub.2,
      fun t ht => ?_⟩
    · exact hordered q.1
    · have hlog : (s₁.partition q.1).log = s.compactedLog q.1 := hrest.1
      rw [PartitionState.log_compact, hlog]
      exact .clean (hcleans.2 q hsub.1)
    · have hne : t ≠ q.1 := fun heq => hnodup.1 (heq ▸ ht)
      rw [compactedLog, setPartition, partition_insert_ne hne]
      exact hrest.2 t ht
  · rw [h₃.log_eq]
    exact .refl

/-- The start of the log moves up, but not beyond its end. -/
theorem lt_of_canApply (h : u.canApply s = .ok false) :
    (s.partition u.tp).startOffset < u.newStartOffset ∧
      u.newStartOffset ≤ (s.partition u.tp).nextOffset := by
  rw [SetStartOffsetUpdate.canApply] at h
  rcases hp : s.partitionState u.tp with - | p
  · simp [hp] at h
  simp only [hp] at h
  rw [ite_error_eq_ok, not_lt] at h
  rw [partition, hp]
  exact ⟨lt_of_not_ge (of_decide_eq_false (Except.ok.inj h.2)), h.1⟩

/-- A new start offset cuts a log. -/
theorem Ordered.setStartOffset (h : s.Ordered) (hs' : u.apply s = .ok s') : s.Steps s' := by
  obtain ⟨isNoOp, hallowed, hs'⟩ := bind_eq_ok.1 hs'
  rcases isNoOp with - | -
  · obtain ⟨s₁, hs₁, hs'⟩ := bind_eq_ok.1 hs'
    obtain ⟨termStarts, -, hs'⟩ := bind_eq_ok.1 hs'
    cases hs'
    obtain ⟨hlt, hle⟩ := lt_of_canApply hallowed
    have h₀ : (s.setPartition u.tp
        { s.partition u.tp with startOffset := u.newStartOffset }).Ordered := by
      refine h.insert ?_ _
      exact h u.tp
    have h₁ := (h₀.sameLogs _).removeExtentsBelowStartOffset hs₁
    refine ⟨h₁.ordered.insert ?_ _, forall_partition_insert
      (P := fun t p => (s.compactedLog t).Step p.log) ?_ fun t hne => ?_⟩
    · exact h₁.ordered u.tp
    · have hlog := h₁.log_eq u.tp
      rw [compactedLog, compactedLog, setPartition, partition_insert_self] at hlog
      rw [PartitionState.log_truncate, hlog]
      exact .truncate hlt hle
    · have hlog := h₁.log_eq t
      rw [compactedLog, compactedLog, setPartition, partition_insert_ne hne] at hlog
      rw [hlog]
      exact .refl
  · cases hs'
    exact ⟨h, fun _ => .refl⟩

/-- The partitions of topics that are removed are gone. -/
theorem partitionState_removeTopics (s : State) (topics : List TopicId) (t : TopicIdPartition) :
    (s.removeTopics topics).partitionState t = none ∨
      (s.removeTopics topics).partitionState t = s.partitionState t := by
  refine foldl_invariant (fun _ (s' : State) => s'.partitionState t = none ∨
    s'.partitionState t = s.partitionState t) (fun {tid l s'} h => ?_) (.inr rfl)
  rcases hp : (s'.removeTopic tid).partitionState t with - | p
  · exact .inl rfl
  · -- a partition that is left was there before
    have hmem := (mem_filter.1 (AList.mem_lookup_iff.1 hp)).1
    have hlookup : s'.partitionState t = some p := AList.mem_lookup_iff.2 hmem
    rcases h with h | h
    · exact nomatch h.symm.trans hlookup
    · exact .inr (hlookup.symm.trans h)

/-- The logs of a topic that is removed are gone. -/
theorem Ordered.removeTopics (h : s.Ordered) (topics : List TopicId) :
    s.Steps (s.removeTopics topics) := by
  refine .of_forall fun t => ?_
  rcases s.partitionState_removeTopics topics t with hnone | heq
  · rw [compactedLog, compactedLog, partition, hnone]
    exact ⟨by rintro _ ⟨⟩, .remove⟩
  · rw [compactedLog, compactedLog, partition_eq_of_partitionState_eq heq]
    exact ⟨h t, .refl⟩

/-- An update does to the log of every partition what is allowed there. -/
theorem Ordered.step (h : s.Ordered) {u : StmUpdate} (hcleans : s.CleansLog u)
    (hstep : s.Step u s') : s.Steps s' := by
  cases u with
  | addObjects u now => exact h.addObjects hcleans hstep
  | replaceObjects u now => exact h.replaceObjects hcleans hstep
  | setStartOffset u => exact h.setStartOffset hstep
  | removeObjects objects | preregisterObjects ids registeredAt =>
    obtain ⟨⟨⟩, -, hstep⟩ := bind_eq_ok.1 hstep
    cases hstep
    exact ⟨h, fun _ => .refl⟩
  | removeTopics topics =>
    cases hstep
    exact h.removeTopics topics
  | expirePreregisteredObjects ids =>
    cases hstep
    exact ⟨h, fun _ => .refl⟩

/-- In every state that is reached, the cleaned ranges of a partition touch its log. -/
theorem sound_of_run {updates : List StmUpdate}
    (h : Run (fun s u s' => s.CleansLog u ∧ s.Step u s') empty updates s) :
    ∀ t, (s.compactedLog t).Sound := by
  have hinv : s.Ordered ∧ ∀ t, (s.compactedLog t).Sound :=
    h.invariant (P := fun s => s.Ordered ∧ ∀ t, (s.compactedLog t).Sound)
      (fun hs hstep => by
        obtain ⟨hordered, hlog⟩ := hs.1.step hstep.1 hstep.2
        exact ⟨hordered, fun t => (hs.2 t).step (hlog t)⟩)
      ⟨nofun, fun t => CompactedLog.sound_init⟩
  exact hinv.2

/-- What is returned for a partition. -/
theorem getCompactionOffsets_eq (hp : s.partitionState t = some p) (upperBound : Int) :
    s.getCompactionOffsets t upperBound =
      .ok (compactionOffsets p.startOffset p.nextOffset p.compactionState upperBound) := by
  rw [getCompactionOffsets, getPartition, hp]
  rfl

/-- A partition that is there has an answer. -/
theorem exists_getCompactionInfo_eq (hp : s.partitionState t = some p) (upperBound : Int) :
    ∃ info, s.getCompactionInfo t upperBound = .ok info ∧ info.offsetsResponse =
      compactionOffsets p.startOffset p.nextOffset p.compactionState upperBound := by
  simp only [getCompactionInfo, getDirtyRatio, getEarliestDirtyTs, getCompactionOffsets,
    getCompactionEpoch, getPartition, hp]
  exact ⟨_, rfl, rfl⟩

end State

end Redpanda.LevelOne
