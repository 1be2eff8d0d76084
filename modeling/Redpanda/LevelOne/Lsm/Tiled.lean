import Redpanda.Lib.Tiling
import Redpanda.LevelOne.Lsm.Extents
import Redpanda.LevelOne.Lsm.StateUpdate
import Redpanda.LevelOne.Requests

/-!
# Extents tile the log

The invariant of the LSM metastore: the extents of a partition tile its log from the
start offset to the next offset, and the counters in the metadata row are those of the
extents (`Tracks`). A partition without metadata has no extents (`Store.Inv`).

The first part is about a partition as such: extents are added at the end
(`Tracks.extend`), removed from the beginning (`Tracks.truncate`) and replaced
(`Tracks.replace`). The second part finds these operations in the rows that the updates
write.
-/

namespace Redpanda.LevelOne.Lsm

open Lib Model Lib.Except List

/-- The extents tile a range of offsets. -/
abbrev Tiles (start stop : Int) (extents : List Extent) : Prop :=
  Tiling Extent.baseOffset Extent.lastOffset start stop {e | e ∈ extents}

/-- The sum of the lengths of extents. -/
def dataSize (extents : List Extent) : Nat :=
  (extents.map (·.len)).sum

/-- The metadata of a partition matches its extents. -/
structure Tracks (t : TopicIdPartition) (m : MetadataRowValue) (extents : List Extent) : Prop where
  partition_ne : t.partition ≠ -1
  start_nonneg : 0 ≤ m.startOffset
  next_le_max : m.nextOffset ≤ Offset.max
  base_nonneg : ∀ e ∈ extents, 0 ≤ e.baseOffset
  tiles : Tiles m.startOffset m.nextOffset extents
  size_eq : m.size = dataSize extents
  numExtents_eq : m.numExtents = extents.length

variable {t : TopicIdPartition} {m : MetadataRowValue} {extents : List Extent}

@[simp]
theorem dataSize_append (l l' : List Extent) : dataSize (l ++ l') = dataSize l + dataSize l' := by
  simp [dataSize]

theorem dataSize_perm {l l' : List Extent} (h : l.Perm l') : dataSize l = dataSize l' :=
  (h.map _).sum_eq

/-- A list is made of the elements with a property and those without. -/
theorem perm_filter (l : List Extent) (p : Extent → Prop) [DecidablePred p] :
    l.Perm (l.filter (p ·) ++ l.filter (¬ p ·)) := by
  simpa using (filter_append_perm (p ·) l).symm

/-- Extents in order are apart. -/
theorem apart_of_pairwise {l : List Extent} (hl : l.Pairwise (·.lastOffset < ·.baseOffset)) :
    ∀ e ∈ l, ∀ e' ∈ l, e ≠ e' → e.lastOffset < e'.baseOffset ∨ e'.lastOffset < e.baseOffset :=
  fun _ he _ he' hne => (eq_or_rel_of_pairwise hl he he').resolve_left hne

namespace Tracks

variable (h : Tracks t m extents)

include h

theorem perm {extents' : List Extent} (hperm : extents.Perm extents') : Tracks t m extents' where
  __ := h
  base_nonneg e he := h.base_nonneg e (hperm.mem_iff.2 he)
  tiles := by
    have hset : {e | e ∈ extents'} = {e | e ∈ extents} := Set.ext fun _ => hperm.mem_iff.symm
    rw [Tiles, hset]
    exact h.tiles
  size_eq := h.size_eq.trans (dataSize_perm hperm)
  numExtents_eq := h.numExtents_eq.trans hperm.length_eq

/-- The epoch does not matter. -/
theorem withEpoch (epoch : Int) : Tracks t { m with compactionEpoch := epoch } extents :=
  { h with }

omit h in
/-- A partition without data. -/
theorem init (ht : t.partition ≠ -1) : Tracks t ⟨0, 0, 0, 0, 0⟩ [] where
  partition_ne := ht
  start_nonneg := le_rfl
  next_le_max := by decide
  base_nonneg := by simp
  tiles := by simpa [Tiles] using Tiling.empty (0 : Int)
  size_eq := rfl
  numExtents_eq := rfl

/-- Adding extents at the end. -/
theorem extend {new : List Extent} {stop : Int}
    (hnew : Consecutive Extent.baseOffset Extent.lastOffset m.nextOffset new stop)
    (hstop : stop ≤ Offset.max) :
    Tracks t { m with nextOffset := stop, size := m.size + dataSize new
                      numExtents := m.numExtents + new.length } (extents ++ new) where
  __ := h
  next_le_max := hstop
  base_nonneg := forall_mem_append.2 ⟨h.base_nonneg, fun e he =>
    (h.start_nonneg.trans h.tiles.start_le_stop).trans (hnew.start_le_base e he)⟩
  tiles := by
    have hset : {e | e ∈ extents ++ new} = {e | e ∈ extents} ∪ {e | e ∈ new} :=
      Set.ext fun _ => mem_append
    rw [Tiles, hset]
    exact h.tiles.union hnew.tiling hnew.start_le_base
  size_eq := by rw [dataSize_append, h.size_eq]
  numExtents_eq := by rw [length_append, h.numExtents_eq]

/-- Removing the extents below a new start. -/
theorem truncate {start : Int} (hlt : m.startOffset ≤ start) (hle : start ≤ m.nextOffset) :
    Tracks t { m with
        startOffset := start
        size := m.size - dataSize (extents.filter (·.lastOffset < start))
        numExtents := m.numExtents - (extents.filter (·.lastOffset < start)).length }
      (extents.filter (start ≤ ·.lastOffset)) where
  __ := h
  start_nonneg := h.start_nonneg.trans hlt
  base_nonneg e he := h.base_nonneg e (mem_filter.1 he).1
  tiles := by
    have hset : {e | e ∈ extents.filter (start ≤ ·.lastOffset)} =
        {e ∈ {e | e ∈ extents} | start ≤ e.lastOffset} :=
      Set.ext fun _ => by simp [mem_filter]
    rw [Tiles, hset]
    exact h.tiles.truncate hlt hle
  size_eq := by
    rw [h.size_eq, dataSize_perm (perm_filter extents (·.lastOffset < start)), dataSize_append,
      Nat.add_sub_cancel_left]
    simp only [not_lt]
  numExtents_eq := by
    rw [h.numExtents_eq, (perm_filter extents (·.lastOffset < start)).length_eq, length_append,
      Nat.add_sub_cancel_left]
    simp only [not_lt]

/-- Replacing extents by others that cover the same offsets from the start on. -/
theorem replace {old new : List Extent} (hnodup : extents.Nodup)
    (hold : old.Nodup) (hsub : old ⊆ extents)
    (hnew : ∀ e ∈ new, 0 ≤ e.baseOffset ∧ e.baseOffset ≤ e.lastOffset ∧
      m.startOffset ≤ e.lastOffset)
    (hdisjoint : new.Pairwise (·.lastOffset < ·.baseOffset))
    (hcovers : ∀ o, m.startOffset ≤ o →
      ((∃ e ∈ old, e.Contains o) ↔ ∃ e ∈ new, e.Contains o)) :
    Tracks t { m with
        size := m.size - dataSize old + dataSize new
        numExtents := m.numExtents - old.length + new.length }
      (extents.filter (· ∉ old) ++ new) := by
  have hperm : (extents.filter (· ∈ old)).Perm old := by
    refine (perm_ext_iff_of_nodup (hnodup.filter _) hold).2 fun e => ?_
    simp only [mem_filter, decide_eq_true_eq]
    exact ⟨And.right, fun he => ⟨hsub he, he⟩⟩
  have hset : {e | e ∈ extents.filter (· ∉ old) ++ new} =
      {e | e ∈ extents} \ {e | e ∈ old} ∪ {e | e ∈ new} :=
    Set.ext fun _ => by simp [mem_filter]
  refine ⟨h.partition_ne, h.start_nonneg, h.next_le_max, fun e he => ?_, ?_, ?_, ?_⟩
  · rcases mem_append.1 he with he | he
    · exact h.base_nonneg e (mem_filter.1 he).1
    · exact (hnew e he).1
  · rw [Tiles, hset]
    exact h.tiles.replace hsub (fun e he => (hnew e he).2) hcovers (apart_of_pairwise hdisjoint)
  · rw [dataSize_append, h.size_eq, dataSize_perm (perm_filter extents (· ∈ old)), dataSize_append,
      dataSize_perm hperm, Nat.add_sub_cancel_left]
  · rw [length_append, h.numExtents_eq, (perm_filter extents (· ∈ old)).length_eq, length_append,
      hperm.length_eq, Nat.add_sub_cancel_left]

end Tracks

/-! ## The store -/

/-- The metadata and the extents of a partition match. -/
def PartitionInv (t : TopicIdPartition) : Option MetadataRowValue → List Extent → Prop
  | none, extents => extents = []
  | some m, extents => Tracks t m extents

theorem PartitionInv.perm {o : Option MetadataRowValue} {extents' : List Extent}
    (h : PartitionInv t o extents) (hperm : extents.Perm extents') : PartitionInv t o extents' := by
  rcases o with - | m
  · exact nil_perm.1 ((show extents = [] from h) ▸ hperm)
  · exact Tracks.perm h hperm

variable {s : Store} {l : List SortedExtents.Entry}

namespace Store

/-- The metadata and the extents of all partitions match. -/
def Inv (s : Store) : Prop :=
  ∀ t, PartitionInv t (s.getMetadata t) (s.extents t)

variable {s' : Store} {rows : List WriteBatchRow}

theorem inv_empty : Inv OrderedStore.empty :=
  fun _ => rfl

theorem Inv.tracks (h : s.Inv) (hm : s.getMetadata t = some m) : Tracks t m (s.extents t) := by
  have := h t
  rwa [hm] at this

theorem Inv.base_nonneg (h : s.Inv) (t : TopicIdPartition) :
    ∀ e ∈ s.extents t, 0 ≤ e.baseOffset := by
  intro e he
  rcases hm : s.getMetadata t with - | m
  · have : s.extents t = [] := by simpa [PartitionInv, hm] using h t
    simp [this] at he
  · exact (h.tracks hm).base_nonneg e he

/-- The extents of a partition are determined by its rows. -/
theorem extents_perm {l : List Extent} (hl : l.Nodup) (h : ∀ e, Row.extent t e ∈ s ↔ e ∈ l) :
    l.Perm (s.extents t) :=
  (perm_ext_iff_of_nodup hl (s.extents_nodup t)).2 fun e => by rw [mem_extents, h]

theorem getMetadata_applyRows_of_ne (h : ∀ w ∈ rows, w.key ≠ .metadata t) :
    (s.applyRows rows).getMetadata t = s.getMetadata t :=
  Option.ext fun m => by
    rw [getMetadata_eq_some, getMetadata_eq_some]
    exact mem_applyRows_of_key_ne h

theorem extents_applyRows_of_ne (h : ∀ w ∈ rows, ∀ o, w.key ≠ .extent t o) :
    (s.extents t).Perm ((s.applyRows rows).extents t) :=
  extents_perm (s.extents_nodup t) fun e => by
    rw [mem_extents]
    exact mem_applyRows_of_key_ne fun w hw => h w hw _

/-- A batch that does not write to a partition. -/
theorem Inv.applyRows_of_ne (h : s.Inv) (hmetadata : ∀ w ∈ rows, w.key ≠ .metadata t)
    (hextent : ∀ w ∈ rows, ∀ o, w.key ≠ .extent t o) :
    PartitionInv t ((s.applyRows rows).getMetadata t) ((s.applyRows rows).extents t) := by
  rw [getMetadata_applyRows_of_ne hmetadata]
  exact (h t).perm (extents_applyRows_of_ne hextent)

/-- The keys of a batch belong to neither metadata nor extents. -/
def Auxiliary (rows : List WriteBatchRow) : Prop :=
  ∀ w ∈ rows, (∀ t, w.key ≠ .metadata t) ∧ ∀ t o, w.key ≠ .extent t o

theorem Auxiliary.append {rows' : List WriteBatchRow} (h : Auxiliary rows) (h' : Auxiliary rows') :
    Auxiliary (rows ++ rows') :=
  forall_mem_append.2 ⟨h, h'⟩

theorem auxiliary_objectRows (entries : List (ObjectId × ObjectEntry)) :
    Auxiliary (objectRows entries) :=
  forall_mem_map.2 fun _ _ => ⟨nofun, nofun⟩

theorem auxiliary_tombstones {keys : List Key} (h : ∀ k ∈ keys, ∃ t n, k = .term t n) :
    Auxiliary (keys.map .tombstone) :=
  forall_mem_map.2 fun k hk => by
    obtain ⟨t, n, rfl⟩ := h k hk
    exact ⟨nofun, nofun⟩

/-- Updates of objects do not matter. -/
theorem Inv.auxiliary (h : s.Inv) (hrows : Auxiliary rows) : (s.applyRows rows).Inv :=
  fun t => h.applyRows_of_ne (fun w hw => (hrows w hw).1 t) fun w hw => (hrows w hw).2 t

section Put

variable {β : Type} {l : List (Sigma fun _ : TopicIdPartition => β)}
  (f : (Sigma fun _ : TopicIdPartition => β) → MetadataRowValue)

/-- Writing the metadata of some partitions. -/
theorem mem_put_metadata (hl : l.NodupKeys) {r : Row} :
    r ∈ s.applyRows ((l.map fun p => Row.metadata p.1 (f p)).map .put) ↔
      (∃ p ∈ l, r = .metadata p.1 (f p)) ∨ r ∈ s ∧ ∀ p ∈ l, .metadata p.1 ≠ r.key := by
  rw [mem_applyRows_put]
  · simp only [forall_mem_map]
    simp only [mem_map, eq_comm (b := r)]
    rfl
  · simp only [forall_mem_map]
    intro p hp q hq hkey
    rw [hl.eq_of_fst_eq hp hq (Key.metadata.inj hkey)]

theorem getMetadata_put_of_mem (hl : l.NodupKeys) {p : Sigma fun _ : TopicIdPartition => β}
    (hp : p ∈ l) :
    (s.applyRows ((l.map fun p => Row.metadata p.1 (f p)).map .put)).getMetadata p.1 =
      some (f p) := by
  rw [getMetadata_eq_some, mem_put_metadata f hl]
  exact .inl ⟨p, hp, rfl⟩

theorem getMetadata_put_of_not_mem (ht : t ∉ l.keys) :
    (s.applyRows ((l.map fun p => Row.metadata p.1 (f p)).map .put)).getMetadata t =
      s.getMetadata t := by
  refine getMetadata_applyRows_of_ne ?_
  simp only [forall_mem_map]
  exact fun p hp heq => ht (Key.metadata.inj heq ▸ mem_keys_of_mem hp)

theorem extents_put_metadata :
    (s.extents t).Perm
      ((s.applyRows ((l.map fun p => Row.metadata p.1 (f p)).map .put)).extents t) :=
  extents_applyRows_of_ne (forall_mem_map.2 (forall_mem_map.2 fun _ _ => nofun))

end Put

variable {e : Extent}

theorem mem_keys_extents :
    (Row.extent t e).key ∈ (l.flatMap fun p => p.2.map (Row.extent p.1)).map Row.key ↔
      ∃ p ∈ l, p.1 = t ∧ ∃ e' ∈ p.2, e'.baseOffset = e.baseOffset := by
  simp only [mem_map, mem_flatMap]
  constructor
  · rintro ⟨r, ⟨p, hp, e', he', rfl⟩, heq⟩
    exact ⟨p, hp, (Key.extent.inj heq).1, e', he', (Key.extent.inj heq).2⟩
  · rintro ⟨p, hp, rfl, e', he', heq⟩
    exact ⟨_, ⟨p, hp, e', he', rfl⟩, by simp [Row.key, heq]⟩

/-- Writing extents of some partitions, where those of one partition have different
    base offsets. -/
theorem mem_put_extents (hl : l.NodupKeys)
    (hbase : ∀ p ∈ l, ∀ e ∈ p.2, ∀ e' ∈ p.2, e.baseOffset = e'.baseOffset → e = e') :
    Row.extent t e ∈ s.applyRows ((l.flatMap fun p => p.2.map (Row.extent p.1)).map .put) ↔
      (∃ p ∈ l, p.1 = t ∧ e ∈ p.2) ∨ Row.extent t e ∈ s ∧
        ¬ ∃ p ∈ l, p.1 = t ∧ ∃ e' ∈ p.2, e'.baseOffset = e.baseOffset := by
  rw [← mem_keys_extents, mem_map, mem_applyRows_put]
  · simp only [mem_flatMap, mem_map, Row.extent.injEq, not_exists, not_and]
    refine or_congr_left ⟨?_, ?_⟩
    · rintro ⟨p, hp, e', he', rfl, rfl⟩
      exact ⟨p, hp, rfl, he'⟩
    · rintro ⟨p, hp, rfl, he⟩
      exact ⟨p, hp, e, he, rfl, rfl⟩
  · simp only [mem_flatMap, mem_map]
    rintro r ⟨p, hp, e, he, rfl⟩ r' ⟨q, hq, e', he', rfl⟩ hkey
    obtain ⟨htidp, hoffset⟩ := Key.extent.inj hkey
    obtain rfl := hl.eq_of_fst_eq hp hq htidp
    rw [hbase p hp e he e' he' hoffset]

theorem exists_eq_of_mem_getTermKeys {bound : Option Int} {k : Key}
    (hk : k ∈ s.getTermKeys t bound) : ∃ t n, k = .term t n := by
  obtain ⟨r, hr, rfl⟩ := mem_map.1 hk
  have := mem_takeWhile_imp hr
  rcases r with _ | _ | ⟨t', v⟩ | _ | _ <;> simp [isAtTerm] at this
  exact ⟨t', v.termId, rfl⟩

end Store

/-! ## Requests in range -/

/-- The offsets of all extents of a request are in range. -/
def DbUpdate.InRange : DbUpdate → Prop
  | addObjects u _ => ∀ o ∈ u.newObjects, o.InRange
  | replaceObjects u _ => ∀ o ∈ u.newObjects, o.InRange
  | _ => True

instance : DecidablePred DbUpdate.InRange := fun u => by
  cases u <;> unfold DbUpdate.InRange <;> infer_instance

theorem inRange_of_mem {objects : List NewObject} (h : ∀ o ∈ objects, NewObject.InRange o)
    {p : SortedExtents.Entry}
    (hp : p ∈ (collectExtents objects).entries) {e : Extent} (he : e ∈ p.2) :
    p.1.partition ≠ -1 ∧ 0 ≤ e.baseOffset ∧ e.lastOffset < Offset.max := by
  obtain ⟨o, ho, m, hm, rfl⟩ := exists_of_mem_collectExtents hp he
  exact h o ho ⟨p.1, m⟩ hm

/-! ## Adding objects -/

/-- Extents that pass the check are consecutive. -/
theorem checkExtents_consecutive {next : Int}
    (hrange : ∀ e ∈ extents, 0 ≤ e.baseOffset ∧ e.lastOffset < Offset.max)
    (h : checkExtents t next extents = .ok ()) :
    Consecutive Extent.baseOffset Extent.lastOffset next extents
      (extents.getLast?.elim next (·.lastOffset + 1)) := by
  induction extents generalizing next with
  | nil => rfl
  | cons e extents ih =>
    rw [checkExtents, ite_error_eq_ok, ite_error_eq_ok, not_lt, not_not] at h
    obtain ⟨hle, heq, h⟩ := h
    obtain ⟨hnonneg, hmax⟩ := hrange e mem_cons_self
    rw [nextOffset_eq (by omega) hmax] at h
    refine ⟨heq, hle, ?_⟩
    convert ih (forall_mem_cons.1 hrange).2 h using 1
    rw [getLast?_cons]
    rcases extents.getLast? with - | e' <;> rfl

namespace AddObjectsDbUpdate

/-- What is checked about the extents of a request. -/
theorem checkExtents_of_validateInputs {u : AddObjectsDbUpdate} (h : u.validateInputs = .ok ())
    {p : SortedExtents.Entry}
    (hp : p ∈ (collectExtents u.newObjects).entries) {next : Int}
    (hnext : p.2.head?.any (·.baseOffset = next)) : checkExtents p.1 next p.2 = .ok () := by
  rw [validateInputs, ite_error_eq_ok, ite_error_eq_ok] at h
  obtain ⟨-, -, h⟩ := h
  obtain ⟨_, h, -⟩ := bind_eq_ok.1 h
  have h := forM_eq_ok.1 h p hp
  rw [ite_error_eq_ok] at h
  rcases hextents : p.2 with - | ⟨e, extents⟩
  · simp [hextents] at hnext
  · simp only [hextents, head?_cons, Option.any_some, decide_eq_true_eq] at hnext h
    exact hnext ▸ h.2

/-- The rows written for an accepted request. -/
theorem buildRows_eq_ok {u : AddObjectsDbUpdate} {s : Store} {now : Int} {result : AddObjectsRows}
    (h : u.buildRows s now = .ok result) :
    u.validateInputs = .ok () ∧ ∃ aux, Store.Auxiliary aux ∧
      (∀ w ∈ aux, ∀ t, w.key ≠ .compaction t) ∧
      result.rows = aux
        ++ (((collectExtents u.newObjects).entries.filter s.IsAligned).flatMap
          fun p => p.2.map (Row.extent p.1)).map .put
        ++ (((collectExtents u.newObjects).entries.filter s.IsAligned).map
          fun p => Row.metadata p.1 (s.extendedMetadata p.1 p.2)).map .put := by
  obtain ⟨⟨⟩, hvalid, h⟩ := bind_eq_ok.1 h
  obtain ⟨newObjects, -, h⟩ := bind_eq_ok.1 h
  obtain ⟨newTerms, -, h⟩ := bind_eq_ok.1 h
  generalize foldl removeExtent newObjects _ = objects at h
  cases h
  refine ⟨hvalid, entryRows objects ++ newTerms.flatMap fun p => p.2.map fun v => .put (.term p.1 v),
    (Store.auxiliary_objectRows _).append ?_, forall_mem_append.2 ⟨?_, ?_⟩, ?_⟩
  · exact forall_mem_flatMap.2 fun _ _ => forall_mem_map.2 fun _ _ => ⟨nofun, nofun⟩
  · exact forall_mem_map.2 fun _ _ => nofun
  · exact forall_mem_flatMap.2 fun _ _ => forall_mem_map.2 fun _ _ => nofun
  · simp only [map_flatMap, map_map]
    rfl

end AddObjectsDbUpdate

namespace Store

/-- What the metadata of a partition is taken to be before data is added. -/
def metadataOrInit (s : Store) (t : TopicIdPartition) : MetadataRowValue :=
  (s.getMetadata t).getD ⟨0, 0, 0, 0, 0⟩

theorem expectedNext_eq (s : Store) (t : TopicIdPartition) :
    s.expectedNext t = (s.metadataOrInit t).nextOffset := by
  rw [expectedNext, metadataOrInit]
  rcases s.getMetadata t with - | m <;> rfl

theorem Inv.tracks_metadataOrInit (h : s.Inv) (ht : t.partition ≠ -1) :
    Tracks t (s.metadataOrInit t) (s.extents t) := by
  have := h t
  rw [metadataOrInit]
  rcases hm : s.getMetadata t with - | m
  · rw [hm] at this
    rw [show s.extents t = [] from this]
    exact .init ht
  · exact h.tracks hm

/-- The metadata and the extents of a partition to which extents are added. -/
theorem Inv.tracks_extendedMetadata (h : s.Inv) (ht : t.partition ≠ -1) {new : List Extent}
    (hrange : ∀ e ∈ new, 0 ≤ e.baseOffset ∧ e.lastOffset < Offset.max) (hne : new ≠ [])
    (hcheck : checkExtents t (s.expectedNext t) new = .ok ()) :
    Tracks t (s.extendedMetadata t new) (s.extents t ++ new) := by
  have hconsecutive := checkExtents_consecutive hrange hcheck
  obtain ⟨l, e, rfl⟩ := eq_nil_or_concat' new |>.resolve_left hne
  obtain ⟨hnonneg, hmax⟩ := hrange e (by simp)
  have hle := hconsecutive.base_le_last e (by simp)
  rw [expectedNext_eq, getLast?_concat, Option.elim_some] at hconsecutive
  have := (h.tracks_metadataOrInit ht).extend hconsecutive (by omega)
  rw [extendedMetadata, getLast?_concat]
  dsimp only
  rw [nextOffset_eq (by omega) hmax]
  exact this

/-- The extents of the partitions to which extents are added. -/
theorem Inv.extents_addObjects (h : s.Inv) (hl : l.NodupKeys) (hconsecutive : ∀ p ∈ l, ∃ stop,
      Consecutive Extent.baseOffset Extent.lastOffset (s.expectedNext p.1) p.2 stop)
    {p : SortedExtents.Entry} (hp : p ∈ l) (ht : p.1.partition ≠ -1) :
    (s.extents p.1 ++ p.2).Perm
      ((s.applyRows ((l.flatMap fun p => p.2.map (Row.extent p.1)).map .put)).extents p.1) := by
  have hbase : ∀ p ∈ l, ∀ e ∈ p.2, ∀ e' ∈ p.2, e.baseOffset = e'.baseOffset → e = e' := by
    intro p hp e he e' he' heq
    obtain ⟨stop, hstop⟩ := hconsecutive p hp
    exact hstop.tiling.eq_of_mem he he' (o := e.baseOffset) ⟨le_rfl, hstop.base_le_last e he⟩
      ⟨heq.ge, heq ▸ hstop.base_le_last e' he'⟩
  obtain ⟨stop, hstop⟩ := hconsecutive p hp
  have htracks := h.tracks_metadataOrInit ht
  rw [expectedNext_eq] at hstop
  -- the extents there are end before the new ones begin
  have hbefore : ∀ e ∈ s.extents p.1, ∀ e' ∈ p.2, e.baseOffset < e'.baseOffset := by
    intro e he e' he'
    have := htracks.tiles.base_le_last e he
    have := htracks.tiles.last_lt_stop e he
    have := hstop.start_le_base e' he'
    omega
  refine extents_perm (nodup_append.2 ⟨s.extents_nodup _, hstop.nodup, ?_⟩) fun e => ?_
  · intro e he e' he' heq
    exact (hbefore e he e' he').ne (heq ▸ rfl)
  · rw [mem_put_extents hl hbase, mem_append, mem_extents, or_comm]
    refine or_congr (and_iff_left_of_imp fun he => ?_) ⟨?_, fun he => ?_⟩
    · rintro ⟨q, hq, htidp, e', he', heq⟩
      obtain rfl := hl.eq_of_fst_eq hq hp htidp
      exact (hbefore e (mem_extents.2 he) e' he').ne' heq
    · rintro ⟨q, hq, htidp, he⟩
      rwa [← hl.eq_of_fst_eq hq hp htidp]
    · exact ⟨p, hp, rfl, he⟩

/-- The extents of a partition to which no extents are added. -/
theorem extents_put_extents_of_not_mem (ht : t ∉ l.keys) : (s.extents t).Perm
      ((s.applyRows ((l.flatMap fun p => p.2.map (Row.extent p.1)).map .put)).extents t) := by
  refine extents_applyRows_of_ne ?_
  simp only [map_flatMap, forall_mem_flatMap, forall_mem_map]
  exact fun p hp e _ o heq => ht ((Key.extent.inj heq).1 ▸ mem_keys_of_mem hp)

/-- Writing the extents and the metadata of partitions to which extents are added. -/
theorem Inv.extend (h : s.Inv) (hl : l.NodupKeys)
    (haligned : ∀ p ∈ l, p.1.partition ≠ -1 ∧ p.2 ≠ [] ∧
      (∀ e ∈ p.2, 0 ≤ e.baseOffset ∧ e.lastOffset < Offset.max) ∧
      checkExtents p.1 (s.expectedNext p.1) p.2 = .ok ()) :
    ((s.applyRows ((l.flatMap fun p => p.2.map (Row.extent p.1)).map .put)).applyRows
      ((l.map fun p => Row.metadata p.1 (s.extendedMetadata p.1 p.2)).map .put)).Inv := by
  intro t
  by_cases ht : t ∈ l.keys
  · obtain ⟨new, hp⟩ := exists_of_mem_keys ht
    obtain ⟨hpartition, hne, hnew, hcheck⟩ := haligned _ hp
    have hconsecutive : ∀ p ∈ l, ∃ stop,
        Consecutive Extent.baseOffset Extent.lastOffset (s.expectedNext p.1) p.2 stop :=
      fun p hp => ⟨_, checkExtents_consecutive (haligned p hp).2.2.1 (haligned p hp).2.2.2⟩
    rw [getMetadata_put_of_mem (fun p => s.extendedMetadata p.1 p.2) hl hp]
    exact (h.tracks_extendedMetadata hpartition hnew hne hcheck).perm
      ((h.extents_addObjects hl hconsecutive hp hpartition).trans (extents_put_metadata _))
  · have hmetadata : ∀ w ∈ (l.flatMap fun p => p.2.map (Row.extent p.1)).map WriteBatchRow.put,
        w.key ≠ .metadata t :=
      forall_mem_map.2 (forall_mem_flatMap.2 fun _ _ => forall_mem_map.2 fun _ _ => nofun)
    rw [getMetadata_put_of_not_mem _ ht, getMetadata_applyRows_of_ne hmetadata]
    exact (h t).perm ((extents_put_extents_of_not_mem ht).trans (extents_put_metadata _))

theorem Inv.addObjects (h : s.Inv) {u : AddObjectsDbUpdate} {now : Int} {result : AddObjectsRows}
    (hrange : ∀ o ∈ u.newObjects, o.InRange) (hresult : u.buildRows s now = .ok result) :
    (s.applyRows result.rows).Inv := by
  obtain ⟨hvalid, aux, haux, -, hrows⟩ := AddObjectsDbUpdate.buildRows_eq_ok hresult
  have hmetadata : ∀ t, (s.applyRows aux).getMetadata t = s.getMetadata t := fun t =>
    getMetadata_applyRows_of_ne fun w hw => (haux w hw).1 t
  have hextended : ∀ t new,
      s.extendedMetadata t new = (s.applyRows aux).extendedMetadata t new := fun t new => by
    simp only [extendedMetadata, hmetadata]
  rw [hrows, applyRows_append, applyRows_append]
  simp only [hextended]
  refine (h.auxiliary haux).extend
    ((collectExtents u.newObjects).nodupKeys.sublist filter_sublist) fun p hp => ?_
  obtain ⟨hp, haligned⟩ := mem_filter.1 hp
  have hne := ne_nil_of_mem_collectExtents hp
  obtain ⟨e, he⟩ := exists_mem_of_ne_nil _ hne
  refine ⟨(inRange_of_mem hrange hp he).1, hne, fun e he => (inRange_of_mem hrange hp he).2, ?_⟩
  have hnext : (s.applyRows aux).expectedNext p.1 = s.expectedNext p.1 := by
    simp only [expectedNext, hmetadata]
  rw [hnext]
  exact AddObjectsDbUpdate.checkExtents_of_validateInputs hvalid hp (of_decide_eq_true haligned)

end Store

end Redpanda.LevelOne.Lsm
