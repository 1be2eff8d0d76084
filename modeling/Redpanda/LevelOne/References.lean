import Redpanda.LevelOne.Accounting

/-!
# References to objects

The in-memory metastore accounts for the extents of all partitions (`State.Accounted`) in
all runs, as long as no object is removed to which an extent without data refers. An
object counts as unreferenced when the bytes removed from it are all its bytes, which
leaves out extents of length zero.
-/

namespace Redpanda.LevelOne

open Lib Model Lib.Except List

theorem PartitionState.extents_extendNextOffset (p : PartitionState) :
    p.extendNextOffset.extents = p.extents := by
  rw [extendNextOffset]
  split <;> rfl

namespace State

variable {s s' : State} {t : TopicIdPartition} {p : PartitionState} {newObjects : List NewObject}
  {objects : List ObjectId}

theorem partition_insert_self (m : AList fun _ : TopicIdPartition => PartitionState)
    (p : PartitionState) (objects : ObjectEntries) :
    (⟨m.insert t p, objects⟩ : State).partition t = p := by
  rw [partition, partitionState, AList.lookup_insert]
  rfl

theorem partition_insert_ne {t' : TopicIdPartition} (h : t' ≠ t) (p : PartitionState)
    (objects : ObjectEntries) :
    (⟨s.partitions.insert t p, objects⟩ : State).partition t' = s.partition t' := by
  rw [partition, partitionState, AList.lookup_insert_ne h]
  rfl

/-- What holds of all partitions after one of them is set. -/
theorem forall_partition_insert {P : TopicIdPartition → PartitionState → Prop}
    {objects : ObjectEntries} (ht : P t p) (h : ∀ t' ≠ t, P t' (s.partition t')) :
    ∀ t', P t' ((⟨s.partitions.insert t p, objects⟩ : State).partition t') := by
  intro t'
  rcases eq_or_ne t' t with rfl | hne
  · rwa [partition_insert_self]
  · rw [partition_insert_ne hne]
    exact h t' hne

theorem mem_allExtents_of_mem_partition {e : Extent} (h : e ∈ (s.partition t).extents) :
    e ∈ s.allExtents :=
  (s.allExtents_perm t).mem_iff.2 (mem_append_left _ h)

/-- A state with the same objects, as far as extents refer to them, and no more extents. -/
structure Shrinks (s s' : State) : Prop where
  registered : ∀ oid, IsRegistered s.objects oid → IsRegistered s'.objects oid
  subset : ∀ t, ∀ e ∈ (s'.partition t).extents, e ∈ (s.partition t).extents

/-- Removing some extents of a partition. -/
theorem Accounted.shrinks_removeRows (h : s.Accounted) {l : List Extent}
    (hsub : l ⊆ (s.partition t).extents.rows)
    (hp : p.extents = (s.partition t).extents.removeAll l) :
    s.Shrinks ⟨s.partitions.insert t p, l.foldl removeData s.objects⟩ where
  registered oid ho := by
    have hl : ∀ e ∈ l, e.oid ∈ s.objects := fun e he =>
      (h.registered e (mem_allExtents_of_mem_partition (hsub he))).mem
    exact ho.of_lookup_map (lookup_removeData hl) fun _ _ => rfl
  subset := forall_partition_insert
    (P := fun t' p' => ∀ e ∈ p'.extents, e ∈ (s.partition t').extents)
    (fun _ he => (mem_filter.1 (hp ▸ he)).1) fun _ _ _ => id

/-- Removing the extents below the start of the log. -/
theorem Accounted.removeExtentsBelowStartOffset {rounds : Nat} (h : s.Accounted)
    (hs' : s.removeExtentsBelowStartOffset rounds t = .ok s') : s'.Accounted := by
  obtain ⟨-, rfl⟩ := removeExtentsBelowStartOffset_eq_ok hs'
  have hsublist := takeWhile_sublist
    (fun e : Extent => decide (e.lastOffset < (s.partition t).startOffset))
    (l := (s.partition t).extents.rows)
  exact h.removeRows ((s.partition t).extents.nodup.sublist hsublist) hsublist.subset rfl

/-- Some extents in a row are removed. -/
theorem replaceRange_eq_ok {i : Interval} (hs' : s.replaceRange t i = .ok s') :
    ∃ baseIt lastIt, s' =
      { partitions := s.partitions.insert t { s.partition t with
          extents := (s.partition t).extents.removeAll
            (((s.partition t).extents.rows.take (lastIt + 1)).drop baseIt) }
        objects := (((s.partition t).extents.rows.take (lastIt + 1)).drop baseIt).foldl removeData
          s.objects } := by
  rw [State.replaceRange] at hs'
  rcases hrange : getRange (s.partition t).extents.rows i.baseOffset i.lastOffset
      (s.partition t).startOffset with - | ⟨baseIt, lastIt⟩
  · simp [hrange] at hs'
  · simp only [hrange] at hs'
    exact ⟨baseIt, lastIt, (Except.ok.inj (ite_error_eq_ok.1 hs').2).symm⟩

/-- Removing the extents that span an interval. -/
theorem Accounted.replaceRange (h : s.Accounted) {i : Interval}
    (hs' : s.replaceRange t i = .ok s') : s'.Accounted ∧ s.Shrinks s' := by
  obtain ⟨baseIt, lastIt, rfl⟩ := replaceRange_eq_ok hs'
  have hsublist : (((s.partition t).extents.rows.take (lastIt + 1)).drop baseIt).Sublist
      (s.partition t).extents.rows :=
    (drop_sublist _ _).trans (take_sublist _ _)
  exact ⟨h.removeRows ((s.partition t).extents.nodup.sublist hsublist) hsublist.subset rfl,
    h.shrinks_removeRows hsublist.subset rfl⟩

/-! ## New extents -/

/-- Extents to be added to partitions: different ones, that are not there yet, of objects
    that are. -/
structure Fresh (s : State) (l : List (Sigma fun _ : TopicIdPartition => List Extent)) :
    Prop where
  nodupKeys : l.NodupKeys
  nodup : ∀ p ∈ l, p.2.Nodup
  registered : ∀ p ∈ l, ∀ e ∈ p.2, IsRegistered s.objects e.oid
  not_mem : ∀ p ∈ l, ∀ e ∈ p.2, e ∉ (s.partition p.1).extents

section Fresh

variable {q : SortedExtents.Entry}
  {l : List SortedExtents.Entry}

theorem Fresh.shrinks (h : s.Fresh l) (hs' : s.Shrinks s') : s'.Fresh l where
  __ := h
  registered p hp e he := hs'.registered _ (h.registered p hp e he)
  not_mem p hp e he hmem := h.not_mem p hp e he (hs'.subset _ e hmem)

/-- What remains to be added after one partition. -/
theorem Fresh.tail (h : s.Fresh (q :: l))
    (hregistered : ∀ oid, IsRegistered s.objects oid → IsRegistered s'.objects oid)
    (hpartition : ∀ t ≠ q.1, s'.partition t = s.partition t) : s'.Fresh l where
  nodupKeys := (nodupKeys_cons.1 h.nodupKeys).2
  nodup p hp := h.nodup p (mem_cons_of_mem _ hp)
  registered p hp e he := hregistered _ (h.registered p (mem_cons_of_mem _ hp) e he)
  not_mem p hp e he hmem := by
    have hne : p.1 ≠ q.1 := fun heq =>
      (nodupKeys_cons.1 h.nodupKeys).1 (heq ▸ mem_keys_of_mem hp)
    rw [hpartition _ hne] at hmem
    exact h.not_mem p (mem_cons_of_mem _ hp) e he hmem

/-- Adding the extents of a partition. -/
theorem Accounted.insertFresh (h : s.Accounted) (hfresh : s.Fresh (q :: l))
    (hp : p.extents = q.2.foldl (fun l e => l.put e) (s.partition q.1).extents) :
    let s' : State := ⟨s.partitions.insert q.1 p, q.2.foldl addData s.objects⟩
    s'.Accounted ∧ s'.Fresh l := by
  have hregistered := hfresh.registered q mem_cons_self
  refine ⟨h.insertRows (hfresh.nodup q mem_cons_self) hregistered
    (hfresh.not_mem q mem_cons_self) hp, hfresh.tail (fun oid ho => ?_)
    fun t ht => partition_insert_ne ht _ _⟩
  exact ho.of_lookup_map (lookup_addData fun e he => (hregistered e he).mem) fun _ _ => rfl

/-- Dropping the extents of a partition. -/
theorem Accounted.dropFresh (h : s.Accounted) (hfresh : s.Fresh (q :: l)) :
    (s.dropExtents q.2).Accounted ∧ (s.dropExtents q.2).Fresh l := by
  have hregistered := hfresh.registered q mem_cons_self
  refine ⟨Balanced.drop h hregistered, hfresh.tail (fun oid ho => ?_) fun t ht => rfl⟩
  exact ho.of_lookup_map (lookup_addData_removeData fun e he => (hregistered e he).mem)
    fun _ _ => rfl

end Fresh

/-- The objects of a request that is accepted are preregistered. -/
theorem preregistered_of_check
    (h : s.checkPreregistered newObjects = .ok ()) : ∀ o ∈ newObjects,
      ∃ entry, s.objects.lookup o.oid = some entry ∧ entry.isPreregistration = true := by
  intro o ho
  have hcheck := forM_eq_ok.1 h o ho
  rcases hentry : s.objects.lookup o.oid with - | entry
  · simp [hentry] at hcheck
  · simp only [hentry] at hcheck
    exact ⟨entry, rfl, (Except.ite_ok_error_eq_ok.1 hcheck).1⟩

variable (h : s.Accounted)

include h

/-- The extents of a request are fresh once its objects are registered. -/
theorem Accounted.registerObjects (now : Int)
    (hids : (newObjects.map (·.oid)).Nodup) (hcheck : s.checkPreregistered newObjects = .ok ()) :
    let s' := { s with objects := registerObjects s.objects newObjects now }
    s'.Accounted ∧ s'.Fresh (collectExtents newObjects).entries := by
  have hpre := preregistered_of_check hcheck
  refine ⟨Balanced.register h hpre, (collectExtents newObjects).nodupKeys,
    fun p hp => nodup_of_mem_collectExtents hids hp, fun p hp e he => ?_, fun p hp e he hext => ?_⟩
  · obtain ⟨o, ho, m, -, rfl⟩ := exists_of_mem_collectExtents hp he
    exact isRegistered_registerObjects _ now (mem_map_of_mem (f := (·.oid)) ho)
  · -- an extent that is there belongs to an object that is not preregistered
    obtain ⟨o, ho, m, -, rfl⟩ := exists_of_mem_collectExtents hp he
    obtain ⟨entry, hentry, htrue⟩ := hpre o ho
    obtain ⟨_, hentry', hfalse⟩ := h.registered _ (mem_allExtents_of_mem_partition hext)
    cases hentry.symm.trans hentry'
    simp [hfalse] at htrue

/-! ## The updates -/

theorem Accounted.addObjects {u : AddObjectsUpdate} {now : Int}
    (hids : (u.newObjects.map (·.oid)).Nodup) (hs' : u.apply s now = .ok s') :
    s'.Accounted := by
  obtain ⟨_, hallowed, hs'⟩ := bind_eq_ok.1 hs'
  rw [AddObjectsUpdate.canApply, ite_error_eq_ok, ite_error_eq_ok] at hallowed
  obtain ⟨⟨⟩, hcheck, -⟩ := bind_eq_ok.1 hallowed.2.2
  refine (foldlM_invariant (fun l s => s.Accounted ∧ s.Fresh l) ?_ hs'
    (h.registerObjects now hids hcheck)).1
  rintro q l s s' ⟨h, hfresh⟩ hs'
  by_cases haligned : s.IsAligned q
  · rw [if_pos haligned] at hs'
    rcases hterms : u.newTerms.lookup q.1 with - | terms
    · rw [hterms] at hs'
      exact nomatch hs'
    · rw [hterms] at hs'
      cases hs'
      exact h.insertFresh hfresh (PartitionState.extents_extendNextOffset _)
  · rw [if_neg haligned] at hs'
    cases hs'
    exact h.dropFresh hfresh

theorem Accounted.replaceObjects {u : ReplaceObjectsUpdate} {now : Int}
    (hids : (u.newObjects.map (·.oid)).Nodup) (hs' : u.apply s now = .ok s') :
    s'.Accounted := by
  obtain ⟨⟨⟩, hallowed, hs'⟩ := bind_eq_ok.1 hs'
  rw [ReplaceObjectsUpdate.canApply, ite_error_eq_ok] at hallowed
  obtain ⟨⟨⟩, hcheck, -⟩ := bind_eq_ok.1 hallowed.2
  obtain ⟨intervals, -, hs'⟩ := bind_eq_ok.1 hs'
  obtain ⟨s₁, hs₁, hs'⟩ := bind_eq_ok.1 hs'
  obtain ⟨s₃, hs₃, hs'⟩ := bind_eq_ok.1 hs'
  cases hs'
  have h₀ := h.registerObjects now hids hcheck
  -- the extents that are replaced are removed, interval by interval
  have h₁ : s₁.Accounted ∧ s₁.Fresh (collectExtents u.newObjects).entries := by
    refine foldlM_invariant (fun _ (s : State) => s.Accounted ∧
      s.Fresh (collectExtents u.newObjects).entries) ?_ hs₁ h₀
    intro p l s s' h hs'
    refine foldlM_invariant (fun _ (s : State) => s.Accounted ∧
      s.Fresh (collectExtents u.newObjects).entries) ?_ hs' h
    intro i l s s' h hs'
    obtain ⟨haccounted, hshrinks⟩ := h.1.replaceRange hs'
    exact ⟨haccounted, h.2.shrinks hshrinks⟩
  have h₂ := foldl_invariant (fun l (s : State) => s.Accounted ∧ s.Fresh l)
    (f := fun s q => s.insertExtents q.1 q.2) (fun h => h.1.insertFresh h.2 rfl) h₁
  have h₃ : s₃.Accounted := foldlM_invariant (fun _ (s : State) => s.Accounted)
    (fun h hs' => h.removeExtentsBelowStartOffset hs') hs₃ h₂.1
  refine foldl_invariant (fun _ (s : State) => s.Accounted) ?_ h₃
  intro q l s h
  exact h.setPartition rfl

theorem Accounted.setStartOffset {u : SetStartOffsetUpdate}
    (hs' : u.apply s = .ok s') : s'.Accounted := by
  obtain ⟨isNoOp, -, hs'⟩ := bind_eq_ok.1 hs'
  rcases isNoOp with - | -
  · obtain ⟨s₁, hs₁, hs'⟩ := bind_eq_ok.1 hs'
    obtain ⟨termStarts, -, hs'⟩ := bind_eq_ok.1 hs'
    cases hs'
    have h₀ : (s.setPartition u.tp { s.partition u.tp with
        startOffset := u.newStartOffset }).Accounted := h.setPartition rfl
    exact (h₀.removeExtentsBelowStartOffset hs₁).setPartition rfl
  · exact Except.ok.inj hs' ▸ h

omit h in
/-- Objects are there, so that none is left out when a topic is removed. -/
theorem foldl_removeData_of_mem {objects : ObjectEntries} {l : List Extent}
    (hl : ∀ e ∈ l, e.oid ∈ objects) :
    l.foldl (fun objects e => if e.oid ∈ objects then removeData objects e else objects) objects =
      l.foldl removeData objects := by
  induction l generalizing objects with
  | nil => rfl
  | cons e l ih =>
    rw [forall_mem_cons] at hl
    rw [foldl_cons, foldl_cons, if_pos hl.1]
    exact ih fun e' he' => (AList.mem_insert _).2 (.inr (hl.2 e' he'))

theorem Accounted.removeTopic (tid : TopicId) : (s.removeTopic tid).Accounted := by
  have hsplit := extentsOf_perm
    (filter_append_perm (fun p => decide (p.1.topicId = tid)) s.partitions.entries).symm
  simp only [← decide_not] at hsplit
  have hbalanced := h.perm hsplit
  rw [extentsOf, flatMap_append] at hbalanced
  have hmem : ∀ e ∈ (s.partitions.entries.filter (·.1.topicId = tid)).flatMap
      (·.2.extents.rows), e.oid ∈ s.objects := fun e he =>
    (hbalanced.registered e (mem_append_left _ he)).mem
  rw [Accounted, State.removeTopic, foldl_removeData_of_mem hmem]
  exact hbalanced.remove

theorem Accounted.removeTopics (topics : List TopicId) : (s.removeTopics topics).Accounted :=
  foldl_invariant (fun _ (s : State) => s.Accounted) (fun h => h.removeTopic _) h

/-- No object that an update removes has an extent of length zero. -/
def KeepsEmptyExtents (s : State) : StmUpdate → Prop
  | .removeObjects objects => ∀ e ∈ s.allExtents, e.oid ∈ objects → e.len ≠ 0
  | _ => True

instance (s : State) : DecidablePred s.KeepsEmptyExtents := fun u => by
  cases u <;> unfold KeepsEmptyExtents <;> infer_instance

/-- No extent refers to an object that is removed. -/
theorem Accounted.not_mem_of_removeObjects
    (hs' : s.removeObjects objects = .ok s') (hkeeps : s.KeepsEmptyExtents (.removeObjects objects)) :
    ∀ e ∈ s.allExtents, e.oid ∉ objects := by
  obtain ⟨⟨⟩, hcheck, -⟩ := bind_eq_ok.1 hs'
  intro e he hmem
  obtain ⟨entry, hentry, -⟩ := h.registered e he
  have hcheck := forM_eq_ok.1 hcheck e.oid hmem
  simp only [hentry] at hcheck
  have hsize := not_not.1 (ite_error_eq_ok.1 hcheck).1
  -- the extents that refer to the object have no bytes
  have htotal := h.total_eq e.oid entry hentry
  have hlen := len_le_bytesOf he
  exact hkeeps e he hmem (by omega)

omit h in
theorem mem_foldl_erase {objects : ObjectEntries} {oids : List ObjectId} {oid : ObjectId} :
    oid ∈ oids.foldl (fun objects oid => objects.erase oid) objects ↔
      oid ∉ oids ∧ oid ∈ objects := by
  induction oids generalizing objects with
  | nil => simp
  | cons oid' oids ih =>
    rw [foldl_cons, ih, AList.mem_erase, mem_cons, not_or, and_left_comm, and_assoc]

/-- Objects may be removed exactly if no extents of length zero refer to them. -/
theorem Accounted.removeObjects_iff (hs' : s.removeObjects objects = .ok s') :
    s'.Accounted ↔ s.KeepsEmptyExtents (.removeObjects objects) := by
  have hmem := h.not_mem_of_removeObjects hs'
  obtain ⟨⟨⟩, -, hs'⟩ := bind_eq_ok.1 hs'
  cases hs'
  refine ⟨fun h' e he hoid => ?_, fun hkeeps => Balanced.erase h (hmem hkeeps)⟩
  exact absurd hoid (mem_foldl_erase.1 (h'.registered e he).mem).1

theorem Accounted.preregisterObjects {ids : List ObjectId} {registeredAt : Int}
    (hs' : s.preregisterObjects ids registeredAt = .ok s') : s'.Accounted := by
  obtain ⟨⟨⟩, hcheck, hs'⟩ := bind_eq_ok.1 hs'
  cases hs'
  exact Balanced.preregister h fun oid hoid =>
    (ite_error_eq_ok.1 (forM_eq_ok.1 hcheck oid hoid)).1

end State

/-! ## Runs -/

/-- The objects of a request are different. -/
def StmUpdate.DistinctIds : StmUpdate → Prop
  | addObjects u _ => (u.newObjects.map (·.oid)).Nodup
  | replaceObjects u _ => (u.newObjects.map (·.oid)).Nodup
  | _ => True

instance : DecidablePred StmUpdate.DistinctIds := fun u => by
  cases u <;> unfold StmUpdate.DistinctIds <;> infer_instance

namespace State

variable {s s' : State}

theorem accounted_empty : empty.Accounted :=
  ⟨nofun, nofun⟩

/-- An update that is accepted keeps the accounts exactly if it does not remove objects
    with extents of length zero. -/
theorem Accounted.step_iff (h : s.Accounted) {u : StmUpdate} (hids : u.DistinctIds)
    (hstep : s.Step u s') : s'.Accounted ↔ s.KeepsEmptyExtents u := by
  cases u with
  | addObjects u now => exact iff_of_true (h.addObjects hids hstep) trivial
  | replaceObjects u now => exact iff_of_true (h.replaceObjects hids hstep) trivial
  | setStartOffset u => exact iff_of_true (h.setStartOffset hstep) trivial
  | removeObjects objects => exact h.removeObjects_iff hstep
  | removeTopics topics =>
    cases hstep
    exact iff_of_true (h.removeTopics topics) trivial
  | preregisterObjects ids registeredAt =>
    exact iff_of_true (h.preregisterObjects hstep) trivial
  | expirePreregisteredObjects ids =>
    cases hstep
    exact iff_of_true (Balanced.expire h ids) trivial

/-- In runs in which no objects are removed that have extents of length zero, the counters of
    every object differ by the bytes of the extents that refer to it, and the objects of all
    extents are there. The next update keeps it so exactly if it meets the condition as
    well, and then it does not remove an object to which an extent refers. -/
theorem accounted_of_run {updates : List StmUpdate}
    (h : Run (fun s u s' => u.DistinctIds ∧ s.KeepsEmptyExtents u ∧ s.Step u s')
      empty updates s) :
    s.Accounted ∧
      (∀ u s', u.DistinctIds → s.Step u s' → (s'.Accounted ↔ s.KeepsEmptyExtents u)) ∧
      ∀ objects s', s.KeepsEmptyExtents (.removeObjects objects) →
        s.Step (.removeObjects objects) s' → ∀ e ∈ s.allExtents, e.oid ∉ objects := by
  have haccounted : s.Accounted := h.invariant (P := Accounted)
    (fun hs hstep => (hs.step_iff hstep.1 hstep.2.2).2 hstep.2.1) accounted_empty
  exact ⟨haccounted, fun u s' hids hstep => haccounted.step_iff hids hstep,
    fun objects s' hkeeps hstep => haccounted.not_mem_of_removeObjects hstep hkeeps⟩

/-- Executing updates that meet a condition. -/
theorem exists_run {P : State → StmUpdate → Prop} [∀ s, DecidablePred (P s)] {α : Type}
    {f : State → α} {a : α} {l : List StmUpdate}
    (h : (l.foldlM (fun s u => if P s u then (u.apply s).toOption else none) empty).map f =
      some a) :
    ∃ s, Run (fun s u s' => P s u ∧ s.Step u s') empty l s ∧ f s = a := by
  obtain ⟨s, hrun, hf⟩ := Run.exists_of_foldlM h
  exact ⟨s, hrun.imp fun hstep => ⟨hstep.1, Except.toOption_eq_some.1 hstep.2⟩, hf⟩

/-- An object with one extent, of some length. -/
def objectOf (oid : ObjectId) (t : TopicIdPartition) (baseOffset lastOffset : Int) (len : Nat) :
    NewObject :=
  ⟨oid, 10, 20, AList.singleton t ⟨baseOffset, lastOffset, 0, 0, len⟩⟩

/-- An object is replaced by another one and then removed. -/
theorem accounted_of_run_replace :
    let t : TopicIdPartition := ⟨0, 0⟩
    let updates : List StmUpdate :=
      [.preregisterObjects [1, 2] 0,
        .addObjects ⟨[objectOf 1 t 0 9 10], AList.singleton t [⟨0, 0⟩]⟩ 0,
        .replaceObjects ⟨[objectOf 2 t 0 9 5], ∅⟩ 0,
        .removeObjects [1]]
    ∃ s, Run (fun s u s' => u.DistinctIds ∧ s.KeepsEmptyExtents u ∧ s.Step u s')
        empty updates s ∧ s.allExtents = [⟨0, 9, 0, 0, 5, 2⟩] ∧ s.Accounted := by
  intro t updates
  obtain ⟨s, hrun, hextents⟩ := exists_run (f := allExtents) (l := updates)
    (P := fun s u => u.DistinctIds ∧ s.KeepsEmptyExtents u)
    (show _ = some [⟨0, 9, 0, 0, 5, 2⟩] by decide)
  have hrun : Run (fun s u s' => u.DistinctIds ∧ s.KeepsEmptyExtents u ∧ s.Step u s')
      empty updates s := hrun.imp and_assoc.1
  exact ⟨s, hrun, hextents, (accounted_of_run hrun).1⟩

/-- An object is replaced by one without data left, which is then removed although an
    extent refers to it. -/
theorem exists_run_not_accounted :
    let t : TopicIdPartition := ⟨0, 0⟩
    let updates : List StmUpdate :=
      [.preregisterObjects [1, 2] 0,
        .addObjects ⟨[objectOf 1 t 0 9 10], AList.singleton t [⟨0, 0⟩]⟩ 0,
        .replaceObjects ⟨[objectOf 2 t 0 9 0], ∅⟩ 0,
        .removeObjects [2]]
    ∃ s, Run (fun s u s' => u.DistinctIds ∧ s.Step u s') empty updates s ∧
      (∃ e ∈ s.allExtents, e.oid ∉ s.objects) ∧ ¬ s.Accounted := by
  intro t updates
  obtain ⟨s, hrun, hs⟩ := exists_run (f := fun s => (s.allExtents, s.objects.keys))
    (l := updates) (P := fun _ u => u.DistinctIds)
    (show _ = some ([⟨0, 9, 0, 0, 0, 2⟩], [1]) by decide)
  obtain ⟨hextents, hkeys⟩ := Prod.mk.inj hs
  have he : (⟨0, 9, 0, 0, 0, 2⟩ : Extent) ∈ s.allExtents := by simp [hextents]
  have hoid : 2 ∉ s.objects := fun hmem => by simpa [hkeys] using AList.mem_keys.1 hmem
  exact ⟨s, hrun, ⟨_, he, hoid⟩, fun h => hoid (h.registered _ he).mem⟩

end State

end Redpanda.LevelOne
