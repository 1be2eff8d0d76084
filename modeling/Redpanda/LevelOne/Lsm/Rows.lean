import Redpanda.Lib.OrderedStore
import Redpanda.LevelOne.State

/-!
# The rows of the LSM metastore

The LSM metastore keeps its state in the rows of a key-value store. Keys are compared
byte by byte, and begin with the type of the row. All other parts have a fixed length
and are written with the highest byte first, so that keys with non-negative offsets and
terms are compared part by part (`Key.fields`). A row is found by its key: the base offset
of an extent and the term of a term start are in the key, not in the value.
-/

namespace Redpanda.LevelOne.Lsm

open Lib List

inductive Key
  | metadata (tidp : TopicIdPartition)
  | extent (tidp : TopicIdPartition) (baseOffset : Int)
  | term (tidp : TopicIdPartition) (term : Int)
  | compaction (tidp : TopicIdPartition)
  | object (oid : ObjectId)
  deriving DecidableEq

namespace Key

/-- The parts of a key in the order in which keys are compared, beginning with the
    `row_type`. -/
def fields : Key → Nat ×ₗ Nat ×ₗ Nat ×ₗ Int
  | metadata t => toLex (0, toLex (t.topicId, toLex (t.partition.toNat, 0)))
  | extent t o => toLex (1, toLex (t.topicId, toLex (t.partition.toNat, o)))
  | term t n => toLex (2, toLex (t.topicId, toLex (t.partition.toNat, n)))
  | compaction t => toLex (3, toLex (t.topicId, toLex (t.partition.toNat, 0)))
  | object o => toLex (4, toLex (o, toLex (0, 0)))

theorem fields_injective : Function.Injective fields := by
  rintro (⟨⟨⟩⟩ | ⟨⟨⟩, _⟩ | ⟨⟨⟩, _⟩ | ⟨⟨⟩⟩ | ⟨⟩) (⟨⟨⟩⟩ | ⟨⟨⟩, _⟩ | ⟨⟨⟩, _⟩ | ⟨⟨⟩⟩ | ⟨⟩) h <;>
    simp_all [fields, BitVec.toNat_inj]

instance : LinearOrder Key :=
  LinearOrder.lift' fields fields_injective

end Key

/-- The offsets and the size of a partition (`metadata_row_value`). -/
structure MetadataRowValue where
  startOffset : Int
  nextOffset : Int
  compactionEpoch : Int
  size : Nat
  numExtents : Nat
  deriving DecidableEq

inductive Row
  | metadata (tidp : TopicIdPartition) (value : MetadataRowValue)
  | extent (tidp : TopicIdPartition) (value : Extent)
  | term (tidp : TopicIdPartition) (value : TermStart)
  | compaction (tidp : TopicIdPartition) (value : CompactionState)
  | object (oid : ObjectId) (value : ObjectEntry)

def Row.key : Row → Key
  | metadata t _ => .metadata t
  | extent t e => .extent t e.baseOffset
  | term t v => .term t v.termId
  | compaction t _ => .compaction t
  | object o _ => .object o

abbrev Store := OrderedStore Row.key

/-- `write_batch_row`: a row to write, or the tombstone of a key. -/
inductive WriteBatchRow
  | put (row : Row)
  | tombstone (key : Key)

namespace Store

def applyRow (s : Store) : WriteBatchRow → Store
  | .put row => s.put row
  | .tombstone key => s.erase key

/-- A write batch applied to the store. -/
def applyRows (s : Store) (rows : List WriteBatchRow) : Store :=
  rows.foldl applyRow s

end Store

/-- The key a row of a batch is written to. -/
def WriteBatchRow.key : WriteBatchRow → Key
  | put row => row.key
  | tombstone key => key

/-- The partition after another one, as used to end a range of keys. -/
def nextPartition (t : TopicIdPartition) : TopicIdPartition :=
  { t with partition := t.partition + 1 }

/-! ## What a batch does to the store -/

namespace Store

variable {s : Store} {r : Row}

theorem applyRows_append (s : Store) (rows rows' : List WriteBatchRow) :
    s.applyRows (rows ++ rows') = (s.applyRows rows).applyRows rows' :=
  foldl_append

/-- Rows with other keys stay as they are. -/
theorem mem_applyRows_of_key_ne {rows : List WriteBatchRow} (h : ∀ w ∈ rows, w.key ≠ r.key) :
    r ∈ s.applyRows rows ↔ r ∈ s := by
  induction rows generalizing s with
  | nil => exact Iff.rfl
  | cons w rows ih =>
    rw [forall_mem_cons] at h
    refine (ih h.2).trans ?_
    rcases w with row | key
    · have hne : row.key ≠ r.key := h.1
      rw [applyRow, OrderedStore.mem_put]
      exact ⟨fun hr => (hr.resolve_left fun heq => hne (heq ▸ rfl)).1, fun hr => .inr ⟨hr, hne.symm⟩⟩
    · exact OrderedStore.mem_erase.trans (and_iff_left (Ne.symm h.1))

/-- Writing rows with different keys. -/
theorem mem_applyRows_put {rows : List Row}
    (hkeys : ∀ a ∈ rows, ∀ b ∈ rows, a.key = b.key → a = b) :
    r ∈ s.applyRows (rows.map .put) ↔ r ∈ rows ∨ r ∈ s ∧ ∀ a ∈ rows, a.key ≠ r.key := by
  induction rows generalizing s with
  | nil => simp [applyRows]
  | cons a rows ih =>
    have hkeys' : ∀ a ∈ rows, ∀ b ∈ rows, a.key = b.key → a = b := fun a ha b hb =>
      hkeys a (mem_cons_of_mem _ ha) b (mem_cons_of_mem _ hb)
    rw [map_cons, applyRows, foldl_cons, ← applyRows, ih hkeys', applyRow,
      OrderedStore.mem_put, mem_cons, forall_mem_cons]
    constructor
    · rintro (hr | ⟨rfl | ⟨hr, hne⟩, hrows⟩)
      · exact .inl (.inr hr)
      · exact .inl (.inl rfl)
      · exact .inr ⟨hr, hne.symm, hrows⟩
    · rintro ((rfl | hr) | ⟨hr, hne, hrows⟩)
      · by_cases hr : r ∈ rows
        · exact .inl hr
        · refine .inr ⟨.inl rfl, fun b hb hkey => hr ?_⟩
          rwa [← hkeys b (mem_cons_of_mem _ hb) r mem_cons_self hkey]
      · exact .inl hr
      · exact .inr ⟨.inr ⟨hr, hne.symm⟩, hrows⟩

theorem mem_applyRows_tombstone {keys : List Key} :
    r ∈ s.applyRows (keys.map .tombstone) ↔ r ∈ s ∧ r.key ∉ keys := by
  induction keys generalizing s with
  | nil => simp [applyRows]
  | cons k keys ih =>
    rw [map_cons, applyRows, foldl_cons, ← applyRows, ih, applyRow,
      OrderedStore.mem_erase, mem_cons, not_or, and_assoc]

end Store

/-! ## The order of keys -/

namespace Key

variable {t : TopicIdPartition} {k : Key} {o o' : Int}

theorem lt_iff_fields {k k' : Key} : k < k' ↔ k.fields < k'.fields :=
  Iff.rfl

theorem le_iff_fields {k k' : Key} : k ≤ k' ↔ k.fields ≤ k'.fields :=
  Iff.rfl

@[simp]
theorem extent_lt_extent : extent t o < extent t o' ↔ o < o' := by
  simp [lt_iff_fields, fields, Prod.Lex.toLex_lt_toLex]

@[simp]
theorem extent_le_extent : extent t o ≤ extent t o' ↔ o ≤ o' := by
  simp [le_iff_fields, fields, Prod.Lex.toLex_le_toLex]

/-- Between the keys of extents of a partition there are only such keys. -/
theorem eq_extent_of_between (h : extent t o ≤ k) (h' : k ≤ extent t o') : ∃ o, k = extent t o := by
  rcases k with u | ⟨u, b⟩ | ⟨u, b⟩ | u | u <;>
    simp only [le_iff_fields, fields, Prod.Lex.toLex_le_toLex] at h h' <;> try omega
  refine ⟨b, ?_⟩
  have htopic : @Eq Nat u.topicId t.topicId := by omega
  have hpartition : u.partition = t.partition := BitVec.eq_of_toNat_eq (by omega)
  rw [show u = t from by cases u; cases t; simp_all]

variable (ht : t.partition ≠ -1)

include ht

theorem toNat_nextPartition : (nextPartition t).partition.toNat = t.partition.toNat + 1 := by
  have hne : t.partition.toNat ≠ 2 ^ 32 - 1 := fun h => ht (BitVec.eq_of_toNat_eq h)
  have hlt := t.partition.isLt
  simp only [nextPartition, BitVec.toNat_add, BitVec.reduceToNat]
  omega

theorem extent_lt_nextPartition : extent t o < extent (nextPartition t) o' := by
  simp only [lt_iff_fields, fields, Prod.Lex.toLex_lt_toLex, toNat_nextPartition ht]
  simp [nextPartition]

/-- Between a key of an extent and those of the next partition there are only keys of
    extents of the two partitions. -/
theorem eq_extent_of_lt_nextPartition (h : extent t o ≤ k) (h' : k < extent (nextPartition t) o') :
    (∃ o, k = extent t o) ∨ ∃ o < o', k = extent (nextPartition t) o := by
  have hnext := toNat_nextPartition ht
  have htopic' : (nextPartition t).topicId = t.topicId := rfl
  rcases k with u | ⟨u, b⟩ | ⟨u, b⟩ | u | u <;>
    simp only [le_iff_fields, lt_iff_fields, fields, Prod.Lex.toLex_le_toLex,
      Prod.Lex.toLex_lt_toLex, hnext, htopic'] at h h' <;> try omega
  have htopic : @Eq Nat u.topicId t.topicId := by omega
  rcases eq_or_ne u.partition t.partition with hp | hp
  · exact .inl ⟨b, by rw [show u = t from by cases u; cases t; simp_all]⟩
  · have hp : u.partition.toNat ≠ t.partition.toNat := fun h => hp (BitVec.eq_of_toNat_eq h)
    have hu : u.partition = (nextPartition t).partition := BitVec.eq_of_toNat_eq (by omega)
    refine .inr ⟨b, by omega, ?_⟩
    rw [show u = nextPartition t from by
      cases u
      exact congrArg₂ TopicIdPartition.mk htopic hu]

end Key

end Redpanda.LevelOne.Lsm
