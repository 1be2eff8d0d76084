import Redpanda.LevelOne.Requests
import Redpanda.LevelOne.StateUpdate

/-!
# Accounting of objects

The entry of an object counts the bytes of extents added and removed. The two counters
are *balanced* if they differ by the bytes of the extents that refer to the object, and
if the objects of all extents are there (`Balanced`). This is a property of the objects
and of the extents of all partitions taken together, in any order: extents are
added (`Balanced.add`), removed (`Balanced.remove`) and dropped (`Balanced.drop`),
whatever partition they belong to.
-/

namespace Redpanda.LevelOne

open Lib Model List

/-- The bytes of the extents that refer to an object. -/
def bytesOf (oid : ObjectId) (extents : List Extent) : Nat :=
  ((extents.filter (·.oid = oid)).map (·.len)).sum

/-- The object is there, and it is not only preregistered. -/
def IsRegistered (objects : ObjectEntries) (oid : ObjectId) : Prop :=
  ∃ entry, objects.lookup oid = some entry ∧ entry.isPreregistration = false

/-- The counters of the objects account for the extents there are. -/
structure Balanced (objects : ObjectEntries) (live : List Extent) : Prop where
  total_eq : ∀ oid entry, objects.lookup oid = some entry →
    entry.totalDataSize = entry.removedDataSize + bytesOf oid live
  registered : ∀ e ∈ live, IsRegistered objects e.oid

variable {objects objects' : ObjectEntries} {live live' l : List Extent} {oid : ObjectId}

theorem bytesOf_append (oid : ObjectId) (l l' : List Extent) :
    bytesOf oid (l ++ l') = bytesOf oid l + bytesOf oid l' := by
  simp [bytesOf]

theorem bytesOf_cons (oid : ObjectId) (e : Extent) (l : List Extent) :
    bytesOf oid (e :: l) = (if e.oid = oid then e.len else 0) + bytesOf oid l := by
  by_cases h : e.oid = oid <;> simp [bytesOf, h]

theorem bytesOf_perm (h : l.Perm live) : bytesOf oid l = bytesOf oid live :=
  ((h.filter _).map _).sum_eq

theorem bytesOf_eq_zero (h : ∀ e ∈ l, e.oid ≠ oid) : bytesOf oid l = 0 := by
  have : l.filter (·.oid = oid) = [] := filter_eq_nil_iff.2 fun e he => by simpa using h e he
  rw [bytesOf, this]
  rfl

theorem len_le_bytesOf {e : Extent} (he : e ∈ l) : e.len ≤ bytesOf e.oid l := by
  obtain ⟨l₁, l₂, rfl⟩ := append_of_mem he
  rw [bytesOf_append, bytesOf_cons, if_pos rfl]
  omega

/-! ## Changing the counters -/

theorem lookup_updateObject_self (objects : ObjectEntries) (oid : ObjectId)
    (f : ObjectEntry → ObjectEntry) :
    (updateObject objects oid f).lookup oid =
      some (f ((objects.lookup oid).getD { lastUpdated := -1 })) :=
  AList.lookup_insert _

theorem lookup_updateObject_ne {oid' : ObjectId} (h : oid' ≠ oid) (f : ObjectEntry → ObjectEntry) :
    (updateObject objects oid f).lookup oid' = objects.lookup oid' :=
  AList.lookup_insert_ne h

/-- Adding or removing the data of extents, in both cases a change `f` of an entry by a
    number of bytes that can be summed up. -/
theorem lookup_foldl_updateObject (f : Nat → ObjectEntry → ObjectEntry) (hzero : ∀ o, f 0 o = o)
    (hadd : ∀ a b o, f b (f a o) = f (a + b) o) (hl : ∀ e ∈ l, e.oid ∈ objects)
    (oid : ObjectId) :
    (l.foldl (fun objects e => updateObject objects e.oid (f e.len)) objects).lookup oid =
      (objects.lookup oid).map (f (bytesOf oid l)) := by
  induction l generalizing objects with
  | nil =>
    rw [foldl_nil, show bytesOf oid [] = 0 from rfl, funext hzero]
    exact Option.map_id'.symm
  | cons e l ih =>
    rw [forall_mem_cons] at hl
    have hmem : ∀ e' ∈ l, e'.oid ∈ updateObject objects e.oid (f e.len) := fun e' he' =>
      (AList.mem_insert _).2 (.inr (hl.2 e' he'))
    rw [foldl_cons, ih hmem, bytesOf_cons]
    by_cases heq : e.oid = oid
    · subst heq
      obtain ⟨entry, hentry⟩ := Option.isSome_iff_exists.1 (AList.lookup_isSome.2 hl.1)
      rw [lookup_updateObject_self, if_pos rfl, hentry]
      simp only [Option.getD_some, Option.map_some, hadd]
    · rw [lookup_updateObject_ne (Ne.symm heq), if_neg heq, Nat.zero_add]

section

variable (hl : ∀ e ∈ l, e.oid ∈ objects)

include hl

theorem lookup_addData (oid : ObjectId) :
    (l.foldl addData objects).lookup oid = (objects.lookup oid).map fun o =>
      { o with totalDataSize := o.totalDataSize + bytesOf oid l } :=
  lookup_foldl_updateObject (fun n o => { o with totalDataSize := o.totalDataSize + n })
    (fun _ => rfl) (fun a b o => by simp [Nat.add_assoc]) hl oid

theorem lookup_removeData (oid : ObjectId) :
    (l.foldl removeData objects).lookup oid = (objects.lookup oid).map fun o =>
      { o with removedDataSize := o.removedDataSize + bytesOf oid l } :=
  lookup_foldl_updateObject (fun n o => { o with removedDataSize := o.removedDataSize + n })
    (fun _ => rfl) (fun a b o => by simp [Nat.add_assoc]) hl oid

omit hl in
theorem addData_removeData (objects : ObjectEntries) (e : Extent) :
    addData (removeData objects e) e = updateObject objects e.oid fun o =>
      { o with totalDataSize := o.totalDataSize + e.len
               removedDataSize := o.removedDataSize + e.len } := by
  rw [addData, removeData, updateObject, lookup_updateObject_self, Option.getD_some, updateObject,
    updateObject, AList.insert_insert]

theorem lookup_addData_removeData (oid : ObjectId) :
    (l.foldl (fun objects e => addData (removeData objects e) e) objects).lookup oid =
      (objects.lookup oid).map fun o =>
        { o with totalDataSize := o.totalDataSize + bytesOf oid l
                 removedDataSize := o.removedDataSize + bytesOf oid l } := by
  simp only [addData_removeData]
  exact lookup_foldl_updateObject (fun n o => { o with
    totalDataSize := o.totalDataSize + n, removedDataSize := o.removedDataSize + n })
    (fun _ => rfl) (fun a b o => by simp [Nat.add_assoc]) hl oid

end

/-! ## The loop that removes extents -/

namespace State

variable {startOffset : Int} {rounds : Nat} {extents : BtreeSet Extent}

theorem mem_removeData {e : Extent} (he : e.oid ∈ objects) :
    oid ∈ removeData objects e ↔ oid ∈ objects := by
  rw [removeData, updateObject, AList.mem_insert, or_iff_right_of_imp]
  rintro rfl
  exact he

/-- If the loop returns, however many rounds it took, then it found the objects of all the extents
    that end below the start of the log, and has removed these extents. -/
theorem removeExtents_eq_ok {x : BtreeSet Extent × ObjectEntries}
    (h : removeExtents startOffset rounds extents objects = .ok x) :
    (∀ e ∈ extents.rows.takeWhile (·.lastOffset < startOffset), e.oid ∈ objects) ∧
      x = (extents.removeAll (extents.rows.takeWhile (·.lastOffset < startOffset)),
        (extents.rows.takeWhile (·.lastOffset < startOffset)).foldl removeData objects) := by
  induction rounds generalizing extents objects with
  | zero =>
    rw [removeExtents] at h
    rcases hrows : extents.rows with - | ⟨e, rest⟩ <;> simp only [hrows] at h
    · obtain rfl := Except.ok.inj h
      simp
    · split_ifs at h with hlast
      obtain rfl := Except.ok.inj h
      simp [takeWhile_cons_of_neg, hlast]
  | succ rounds ih =>
    rw [removeExtents] at h
    rcases hrows : extents.rows with - | ⟨e, rest⟩ <;> simp only [hrows] at h
    · obtain rfl := Except.ok.inj h
      simp
    · split_ifs at h with hlast hmem
      · obtain rfl := Except.ok.inj h
        simp [takeWhile_cons_of_neg, hlast]
      · obtain ⟨hobjects, rfl⟩ := ih h
        have htail : extents.tail.rows = rest := congrArg List.tail hrows
        rw [takeWhile_cons_of_pos (by simpa using hlast), forall_mem_cons, foldl_cons,
          OrderedStore.removeAll_cons hrows]
        rw [htail] at hobjects ⊢
        exact ⟨⟨hmem, fun e' he' => (mem_removeData hmem).1 (hobjects e' he')⟩, rfl⟩
      · -- the loop cannot have returned from the extent whose object is missing
        obtain ⟨hobjects, -⟩ := ih h
        rw [hrows, takeWhile_cons_of_pos (by simpa using hlast)] at hobjects
        exact absurd (hobjects e mem_cons_self) hmem

/-- If their objects are there, it returns after as many rounds as there are extents. -/
theorem removeExtents_of_mem (hrounds : extents.rows.length ≤ rounds)
    (h : ∀ e ∈ extents.rows.takeWhile (·.lastOffset < startOffset), e.oid ∈ objects) :
    ∃ x, removeExtents startOffset rounds extents objects = .ok x := by
  induction rounds generalizing extents objects with
  | zero =>
    have hrows : extents.rows = [] := length_eq_zero_iff.1 (Nat.le_zero.1 hrounds)
    exact ⟨_, by rw [removeExtents, hrows]⟩
  | succ rounds ih =>
    rw [removeExtents]
    rcases hrows : extents.rows with - | ⟨e, rest⟩
    · exact ⟨_, rfl⟩
    · by_cases hlast : e.lastOffset ≥ startOffset
      · exact ⟨_, if_pos hlast⟩
      · rw [hrows, takeWhile_cons_of_pos (by simpa using hlast), forall_mem_cons] at h
        have htail : extents.tail.rows = rest := congrArg List.tail hrows
        simp only [if_neg hlast, if_pos h.1]
        refine ih ?_ fun e' he' => (mem_removeData h.1).2 (h.2 e' (htail ▸ he'))
        rw [hrows, length_cons] at hrounds
        rw [htail]
        omega

/-- More rounds do not change what the loop returns. -/
theorem removeExtents_of_le {x : BtreeSet Extent × ObjectEntries} {rounds' : Nat}
    (h : removeExtents startOffset rounds extents objects = .ok x)
    (hrounds : extents.rows.length ≤ rounds') :
    removeExtents startOffset rounds' extents objects = .ok x := by
  obtain ⟨hobjects, rfl⟩ := removeExtents_eq_ok h
  obtain ⟨x, hx⟩ := removeExtents_of_mem hrounds hobjects
  rw [hx, (removeExtents_eq_ok hx).2]

theorem removeExtentsBelowStartOffset_eq_ok {s s' : State} {tp : TopicIdPartition}
    (h : s.removeExtentsBelowStartOffset rounds tp = .ok s') :
    let p := s.partition tp
    let below := p.extents.rows.takeWhile (·.lastOffset < p.startOffset)
    (∀ e ∈ below, e.oid ∈ s.objects) ∧
      s' = { partitions := s.partitions.insert tp { p with extents := p.extents.removeAll below }
             objects := below.foldl removeData s.objects } := by
  obtain ⟨x, hx, hs'⟩ := Except.bind_eq_ok.1 h
  obtain ⟨hobjects, rfl⟩ := removeExtents_eq_ok hx
  exact ⟨hobjects, (Except.ok.inj hs').symm⟩

end State

namespace IsRegistered

theorem mem (h : IsRegistered objects oid) : oid ∈ objects := by
  obtain ⟨entry, hentry, -⟩ := h
  exact AList.lookup_isSome.1 (hentry ▸ rfl)

/-- Objects stay registered when their counters change. -/
theorem of_lookup_map (h : IsRegistered objects oid) {f : ObjectId → ObjectEntry → ObjectEntry}
    (hlookup : ∀ oid, objects'.lookup oid = (objects.lookup oid).map (f oid))
    (hpre : ∀ oid o, (f oid o).isPreregistration = o.isPreregistration) :
    IsRegistered objects' oid := by
  obtain ⟨o, ho, hfalse⟩ := h
  exact ⟨f oid o, by rw [hlookup, ho, Option.map_some], (hpre _ _).trans hfalse⟩

end IsRegistered

/-- The objects of a request are registered. -/
theorem isRegistered_registerObjects (objects : ObjectEntries) {newObjects : List NewObject}
    (now : Int) (h : oid ∈ newObjects.map (·.oid)) :
    IsRegistered (registerObjects objects newObjects now) oid := by
  obtain ⟨o, hlookup⟩ := lookup_foldl_insert_of_mem objects h
  exact ⟨_, hlookup, rfl⟩

namespace Balanced

theorem perm (h : Balanced objects live) (hperm : live.Perm live') : Balanced objects live' where
  total_eq oid entry hentry := by
    rw [h.total_eq oid entry hentry, bytesOf_perm hperm]
  registered e he := h.registered e (hperm.mem_iff.2 he)

/-- What is counted does not change, and objects do not disappear. -/
theorem of_lookup_map (h : Balanced objects live) {f : ObjectId → ObjectEntry → ObjectEntry}
    (hlookup : ∀ oid, objects'.lookup oid = (objects.lookup oid).map (f oid))
    (hpre : ∀ oid o, (f oid o).isPreregistration = o.isPreregistration)
    (htotal : ∀ oid o, o.totalDataSize = o.removedDataSize + bytesOf oid live →
      (f oid o).totalDataSize = (f oid o).removedDataSize + bytesOf oid live')
    (hsub : ∀ e ∈ live', IsRegistered objects e.oid) : Balanced objects' live' where
  total_eq oid entry hentry := by
    rw [hlookup] at hentry
    obtain ⟨o, ho, rfl⟩ := Option.map_eq_some_iff.1 hentry
    exact htotal oid o (h.total_eq oid o ho)
  registered e he := (hsub e he).of_lookup_map hlookup hpre

theorem add (h : Balanced objects live) (hl : ∀ e ∈ l, IsRegistered objects e.oid) :
    Balanced (l.foldl addData objects) (l ++ live) := by
  refine h.of_lookup_map (lookup_addData fun e he => (hl e he).mem) (fun _ _ => rfl)
    (fun oid o ho => ?_) (forall_mem_append.2 ⟨hl, h.registered⟩)
  rw [bytesOf_append]
  dsimp only
  omega

theorem remove (h : Balanced objects (l ++ live)) : Balanced (l.foldl removeData objects) live := by
  obtain ⟨hl, hlive⟩ := forall_mem_append.1 h.registered
  refine h.of_lookup_map (lookup_removeData fun e he => (hl e he).mem) (fun _ _ => rfl)
    (fun oid o ho => ?_) hlive
  rw [bytesOf_append] at ho
  dsimp only
  omega

variable (h : Balanced objects live) {oids : List ObjectId}

include h

theorem drop (hl : ∀ e ∈ l, IsRegistered objects e.oid) :
    Balanced (l.foldl (fun objects e => addData (removeData objects e) e) objects) live := by
  refine h.of_lookup_map (lookup_addData_removeData fun e he => (hl e he).mem) (fun _ _ => rfl)
    (fun oid o ho => ?_) h.registered
  dsimp only
  omega

/-- New entries for objects to which no extents refer. -/
theorem insertAll {α : Type} {l : List α} {f : α → ObjectId} {g : α → ObjectEntry}
    (hg : ∀ a, (g a).totalDataSize = (g a).removedDataSize)
    (hfree : ∀ a ∈ l, ∀ e ∈ live, e.oid ≠ f a) :
    Balanced (l.foldl (fun objects a => objects.insert (f a) (g a)) objects) live := by
  refine ⟨fun oid entry hentry => ?_, fun e he => ?_⟩
  · by_cases hoid : oid ∈ l.map f
    · obtain ⟨a, ha, rfl⟩ := mem_map.1 hoid
      obtain ⟨_, hlookup⟩ := lookup_foldl_insert_of_mem objects hoid
      cases hlookup.symm.trans hentry
      rw [bytesOf_eq_zero (hfree a ha), hg, Nat.add_zero]
    · exact h.total_eq oid entry ((lookup_foldl_insert_of_not_mem hoid).symm.trans hentry)
  · have hoid : e.oid ∉ l.map f := fun hmem => by
      obtain ⟨a, ha, heq⟩ := mem_map.1 hmem
      exact hfree a ha e he heq.symm
    obtain ⟨entry, hentry, hfalse⟩ := h.registered e he
    exact ⟨entry, (lookup_foldl_insert_of_not_mem hoid).trans hentry, hfalse⟩

/-- The objects of a request take the place of preregistered ones. -/
theorem register {newObjects : List NewObject} {now : Int}
    (hnew : ∀ o ∈ newObjects, ∃ entry, objects.lookup o.oid = some entry ∧
      entry.isPreregistration = true) : Balanced (registerObjects objects newObjects now) live := by
  refine h.insertAll (fun _ => rfl) fun o ho e he heq => ?_
  obtain ⟨entry, hentry, htrue⟩ := hnew o ho
  obtain ⟨_, hentry', hfalse⟩ := h.registered e he
  cases (heq ▸ hentry').symm.trans hentry
  simp [hfalse] at htrue

/-- Removing objects to which no extents refer. -/
theorem erase (hoids : ∀ e ∈ live, e.oid ∉ oids) :
    Balanced (oids.foldl (fun objects oid => objects.erase oid) objects) live := by
  induction oids generalizing objects with
  | nil => exact h
  | cons oid oids ih =>
    refine ih ⟨fun oid' entry hentry => ?_, fun e he => ?_⟩ fun e he hmem =>
      hoids e he (mem_cons_of_mem oid hmem)
    · rcases eq_or_ne oid' oid with rfl | hne
      · simp [AList.lookup_erase] at hentry
      · rw [AList.lookup_erase_ne hne] at hentry
        exact h.total_eq oid' entry hentry
    · obtain ⟨entry, hentry, hfalse⟩ := h.registered e he
      have hne : e.oid ≠ oid := fun heq => hoids e he (heq ▸ mem_cons_self)
      exact ⟨entry, by rw [AList.lookup_erase_ne hne, hentry], hfalse⟩

/-- Preregistering objects that are not there. -/
theorem preregister {registeredAt : Int} (hoids : ∀ oid ∈ oids, oid ∉ objects) :
    Balanced (oids.foldl (fun objects oid => objects.insert oid
      { lastUpdated := registeredAt, isPreregistration := true }) objects) live :=
  h.insertAll (f := id) (fun _ => rfl) fun _ hoid e he heq =>
    hoids _ (heq ▸ hoid) (h.registered e he).mem

/-- Ending the preregistration of objects. -/
theorem expire (oids : List ObjectId) : Balanced (oids.foldl (fun objects oid =>
      match objects.lookup oid with
      | some entry => objects.insert oid { entry with isPreregistration := false }
      | none => objects) objects) live := by
  induction oids generalizing objects with
  | nil => exact h
  | cons oid oids ih =>
    refine ih ?_
    rcases hlookup : objects.lookup oid with - | entry
    · simpa only [hlookup] using h
    simp only [hlookup]
    refine ⟨fun oid' entry' hentry => ?_, fun e he => ?_⟩
    · rcases eq_or_ne oid' oid with rfl | hne
      · rw [AList.lookup_insert] at hentry
        cases hentry
        exact h.total_eq oid' entry hlookup
      · rw [AList.lookup_insert_ne hne] at hentry
        exact h.total_eq oid' entry' hentry
    · rcases eq_or_ne e.oid oid with heq | hne
      · exact ⟨_, by rw [heq, AList.lookup_insert], rfl⟩
      · obtain ⟨entry', hentry, hfalse⟩ := h.registered e he
        exact ⟨entry', by rw [AList.lookup_insert_ne hne, hentry], hfalse⟩

end Balanced

/-! ## The extents of all partitions -/

namespace State

/-- The extents of some partitions. -/
def extentsOf (partitions : List (Sigma fun _ : TopicIdPartition => PartitionState)) :
    List Extent :=
  partitions.flatMap fun p => p.2.extents.rows

/-- The extents of all partitions. -/
def allExtents (s : State) : List Extent :=
  extentsOf s.partitions.entries

/-- The extents of all partitions but one. -/
def otherExtents (s : State) (t : TopicIdPartition) : List Extent :=
  extentsOf (s.partitions.erase t).entries

/-- The objects account for the extents of all partitions. -/
def Accounted (s : State) : Prop :=
  Balanced s.objects s.allExtents

variable {s s' : State} {t : TopicIdPartition} {p : PartitionState}

theorem extentsOf_perm {l l' : List (Sigma fun _ : TopicIdPartition => PartitionState)}
    (h : l.Perm l') : (extentsOf l).Perm (extentsOf l') :=
  h.flatMap_right _

theorem allExtents_insert (s : State) (t : TopicIdPartition) (p : PartitionState)
    (objects : ObjectEntries) :
    (⟨s.partitions.insert t p, objects⟩ : State).allExtents =
      p.extents.rows ++ s.otherExtents t := by
  rw [allExtents, AList.entries_insert]
  rfl

theorem allExtents_perm (s : State) (t : TopicIdPartition) :
    s.allExtents.Perm ((s.partition t).extents.rows ++ s.otherExtents t) := by
  by_cases ht : t ∈ s.partitions
  · obtain ⟨p, l₁, l₂, -, hentries, herase⟩ := exists_of_kerase ht
    have hp : s.partition t = p := by
      have hmem : ⟨t, p⟩ ∈ s.partitions.entries := by simp [hentries]
      rw [partition, partitionState, AList.mem_lookup_iff.2 hmem, Option.getD_some]
    have hother : s.otherExtents t = extentsOf (l₁ ++ l₂) := congrArg extentsOf herase
    rw [hp, hother, allExtents, hentries]
    exact extentsOf_perm perm_middle
  · have hp : (s.partition t).extents.rows = [] := by
      rw [partition, partitionState, AList.lookup_eq_none.2 ht]
      rfl
    have hother : s.otherExtents t = s.allExtents :=
      congrArg extentsOf (kerase_of_notMem_keys ht)
    rw [hp, hother]
    exact Perm.refl _

namespace Accounted

/-- Adding new extents to a partition. -/
theorem insertRows (h : s.Accounted) {l : List Extent} (hl : l.Nodup)
    (hregistered : ∀ e ∈ l, IsRegistered s.objects e.oid)
    (hfresh : ∀ e ∈ l, e ∉ (s.partition t).extents)
    (hp : p.extents = l.foldl (fun l e => l.put e) (s.partition t).extents) :
    Accounted ⟨s.partitions.insert t p, l.foldl addData s.objects⟩ := by
  have hperm : p.extents.rows.Perm (l ++ (s.partition t).extents.rows) := by
    rw [hp]
    exact OrderedStore.perm_foldl_put (by simpa using hl) fun e he e' he' heq =>
      hfresh e he ((show e' = e from heq) ▸ he')
  rw [Accounted, allExtents_insert]
  refine ((h.perm (s.allExtents_perm t)).add hregistered).perm ?_
  rw [← append_assoc]
  exact hperm.symm.append_right _

/-- Removing some extents of a partition. -/
theorem removeRows (h : s.Accounted) {l : List Extent} (hl : l.Nodup)
    (hsub : l ⊆ (s.partition t).extents.rows)
    (hp : p.extents = (s.partition t).extents.removeAll l) :
    Accounted ⟨s.partitions.insert t p, l.foldl removeData s.objects⟩ := by
  have hperm := OrderedStore.perm_removeAll hl hsub
  rw [Accounted, allExtents_insert, hp]
  refine Balanced.remove ((h.perm (s.allExtents_perm t)).perm ?_)
  rw [← append_assoc]
  exact hperm.append_right _

/-- Changing a partition without changing its extents. -/
theorem setPartition (h : s.Accounted) (hp : p.extents = (s.partition t).extents) :
    (s.setPartition t p).Accounted := by
  rw [Accounted, State.setPartition, allExtents_insert, hp]
  exact h.perm (s.allExtents_perm t)

end Accounted

end State

end Redpanda.LevelOne
