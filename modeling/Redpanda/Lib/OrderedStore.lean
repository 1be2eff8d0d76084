import Redpanda.Lib.Pairwise

/-!
# Ordered stores

A store of rows, each found by its key, with the rows kept in increasing order of
their keys. Besides point lookups, a store is read with an iterator: `seek` finds
the first row at or above a key, `next` and `prev` move from a key to the rows
around it, and `seekToLast` finds the last row. An iterator is the row it stands at,
or `none` if it is not valid.

Each operation is characterised by the rows of the store and the order of their
keys, and not by the list of the rows: `mem_put`, `mem_erase`, `get_eq_some`,
`seek_eq_some`, `prev_eq_some`.
-/

namespace Redpanda.Lib

open List

variable {R K : Type*} [LinearOrder K] {key : R → K}

/-- Rows in increasing order of their keys. -/
@[ext]
structure OrderedStore (key : R → K) where
  rows : List R
  sorted : rows.Pairwise (key · < key ·)

namespace OrderedStore

variable (s : OrderedStore key) (k : K)

instance : Membership R (OrderedStore key) := ⟨fun s r => r ∈ s.rows⟩

theorem mem_def {s : OrderedStore key} {r : R} : r ∈ s ↔ r ∈ s.rows :=
  Iff.rfl

/-- The store without rows. -/
def empty : OrderedStore key := ⟨[], .nil⟩

/-- Writing a row, replacing the one with the same key. -/
def put (r : R) : OrderedStore key where
  rows := s.rows.filter (key · < key r) ++ r :: s.rows.filter (key r < key ·)
  sorted := by
    refine pairwise_append.2 ⟨s.sorted.filter _, ?_, fun a ha b hb => ?_⟩
    · exact pairwise_cons.2 ⟨fun b hb => by simpa using (mem_filter.1 hb).2,
        s.sorted.filter _⟩
    · have ha : key a < key r := by simpa using (mem_filter.1 ha).2
      rcases mem_cons.1 hb with rfl | hb
      · exact ha
      · exact ha.trans (by simpa using (mem_filter.1 hb).2)

/-- Removing the row with a key. -/
def erase : OrderedStore key where
  rows := s.rows.filter (key · ≠ k)
  sorted := s.sorted.filter _

/-- Removing some rows. -/
def removeAll [DecidableEq R] (s : OrderedStore key) (l : List R) : OrderedStore key where
  rows := s.rows.filter (· ∉ l)
  sorted := s.sorted.filter _

/-- Removing the first row. -/
def tail : OrderedStore key where
  rows := s.rows.tail
  sorted := s.sorted.tail

/-- Changing the rows, but not their keys. -/
def map (f : R → R) (h : ∀ r, key (f r) = key r) : OrderedStore key where
  rows := s.rows.map f
  sorted := pairwise_map.2 (s.sorted.imp fun hlt => by rwa [h, h])

/-- The row with a key. -/
def get : Option R :=
  s.rows.find? (key · = k)

/-- The first row at or above a key. -/
def seek : Option R :=
  s.rows.find? (k ≤ key ·)

/-- The last row. -/
def seekToLast : Option R :=
  s.rows.getLast?

/-- The first row above a key. -/
def next : Option R :=
  s.rows.find? (k < key ·)

/-- The last row below a key. -/
def prev : Option R :=
  (s.rows.filter (key · < k)).getLast?

/-- Seeking a key and moving back to the row before it. -/
def seekBefore : Option R :=
  match s.seek k with
  | some r => s.prev (key r)
  | none => s.seekToLast

/-- The rows at or above a key, as read by an iterator from there on. -/
def rowsFrom : List R :=
  s.rows.filter (k ≤ key ·)

variable {s : OrderedStore key} {r r' : R} {k : K}

@[simp]
theorem not_mem_empty : r ∉ (empty : OrderedStore key) :=
  not_mem_nil

theorem nodup_map_key (s : OrderedStore key) : (s.rows.map key).Nodup :=
  pairwise_map.2 (s.sorted.imp ne_of_lt)

theorem nodup (s : OrderedStore key) : s.rows.Nodup :=
  s.nodup_map_key.of_map

/-- The key of a row determines the row. -/
theorem eq_of_key_eq (hr : r ∈ s) (hr' : r' ∈ s) (h : key r = key r') : r = r' :=
  inj_on_of_nodup_map s.nodup_map_key hr hr' h

@[simp]
theorem mem_put : r' ∈ s.put r ↔ r' = r ∨ r' ∈ s ∧ key r' ≠ key r := by
  simp only [mem_def, put, mem_append, mem_cons, mem_filter, decide_eq_true_eq]
  constructor
  · rintro (⟨h, hlt⟩ | rfl | ⟨h, hlt⟩)
    · exact .inr ⟨h, hlt.ne⟩
    · exact .inl rfl
    · exact .inr ⟨h, hlt.ne'⟩
  · rintro (rfl | ⟨h, hne⟩)
    · exact .inr (.inl rfl)
    · exact hne.lt_or_gt.imp (⟨h, ·⟩) fun hlt => .inr ⟨h, hlt⟩

theorem forall_mem_put {P : R → Prop} (hr : P r) (h : ∀ r' ∈ s, P r') : ∀ r' ∈ s.put r, P r' :=
  fun r' hr' => (mem_put.1 hr').elim (· ▸ hr) fun hr' => h r' hr'.1

/-- Writing a row with a new key. -/
theorem perm_put (h : ∀ r' ∈ s, key r' ≠ key r) : (s.put r).rows.Perm (r :: s.rows) := by
  have hfilter : s.rows.filter (key r < key ·) = s.rows.filter fun r' => !decide (key r' < key r) :=
    filter_congr fun r' hr' => by
      rw [← decide_not, decide_eq_decide, not_lt]
      exact ⟨le_of_lt, fun hle => lt_of_le_of_ne hle (h r' hr').symm⟩
  refine perm_middle.trans (Perm.cons _ ?_)
  rw [hfilter]
  exact filter_append_perm (key · < key r) s.rows

variable {l : List R}

/-- Rows that are put into a store which is ordered by all there is to a row. -/
theorem mem_foldl_put (hkey : Function.Injective key) :
    r ∈ l.foldl (fun s r => s.put r) s ↔ r ∈ l ∨ r ∈ s := by
  induction l generalizing s with
  | nil => simp
  | cons a l ih =>
    rw [foldl_cons, ih, mem_put, mem_cons, hkey.ne_iff]
    by_cases h : r = a
    · simp [h]
    · simp [h]

/-- Writing different rows with new keys. -/
theorem perm_foldl_put (hl : (l.map key).Nodup) (h : ∀ r ∈ l, ∀ r' ∈ s, key r' ≠ key r) :
    (l.foldl (fun s r => s.put r) s).rows.Perm (l ++ s.rows) := by
  induction l generalizing s with
  | nil => exact Perm.refl _
  | cons r l ih =>
    rw [map_cons, nodup_cons] at hl
    rw [forall_mem_cons] at h
    refine (ih hl.2 fun a ha r' hr' => ?_).trans
      (((perm_put h.1).append_left l).trans perm_middle)
    rcases mem_put.1 hr' with rfl | ⟨hr', -⟩
    · exact fun heq => hl.1 (heq ▸ mem_map_of_mem ha)
    · exact h.2 a ha r' hr'

/-- Removing some of the rows. -/
theorem perm_removeAll [DecidableEq R] (hl : l.Nodup) (hsub : l ⊆ s.rows) :
    s.rows.Perm (l ++ (s.removeAll l).rows) := by
  have hperm : (s.rows.filter (· ∈ l)).Perm l := by
    refine (perm_ext_iff_of_nodup (s.nodup.filter _) hl).2 fun r => ?_
    simp only [mem_filter, decide_eq_true_eq]
    exact ⟨And.right, fun hr => ⟨hsub hr, hr⟩⟩
  have hsplit := filter_append_perm (· ∈ l) s.rows
  simp only [← decide_not] at hsplit
  exact hsplit.symm.trans (hperm.append_right _)

@[simp]
theorem removeAll_nil [DecidableEq R] (s : OrderedStore key) : s.removeAll [] = s :=
  OrderedStore.ext (by simp [removeAll])

/-- Removing the first row and some others. -/
theorem removeAll_cons [DecidableEq R] {rows : List R} (h : s.rows = r :: rows) (l : List R) :
    s.removeAll (r :: l) = s.tail.removeAll l := by
  have hnot : r ∉ rows := (nodup_cons.1 (h ▸ s.nodup)).1
  refine OrderedStore.ext ?_
  change s.rows.filter (· ∉ r :: l) = s.rows.tail.filter (· ∉ l)
  rw [h, filter_cons_of_neg (by simp), tail_cons]
  refine filter_congr fun r' hr' => ?_
  have hne : r' ≠ r := fun heq => hnot (heq ▸ hr')
  simp [hne]

@[simp]
theorem mem_erase : r ∈ s.erase k ↔ r ∈ s ∧ key r ≠ k := by
  simp [mem_def, erase, mem_filter]

theorem get_eq_some : s.get k = some r ↔ r ∈ s ∧ key r = k := by
  constructor
  · intro h
    exact ⟨mem_of_find?_eq_some h, by simpa using find?_some h⟩
  · rintro ⟨hr, rfl⟩
    obtain ⟨r', hr'⟩ := exists_find?_eq_some (p := (key · = key r)) hr (decide_eq_true rfl)
    have hkey : key r' = key r := by simpa using find?_some hr'
    rw [← eq_of_key_eq (mem_of_find?_eq_some hr') hr hkey, hkey]
    exact hr'

theorem get_eq_none : s.get k = none ↔ ∀ r ∈ s, key r ≠ k := by
  simp [get, mem_def, find?_eq_none]

@[simp]
theorem get_empty : (empty : OrderedStore key).get k = none := rfl

@[simp]
theorem get_put_self (s : OrderedStore key) (r : R) : (s.put r).get (key r) = some r :=
  get_eq_some.2 ⟨mem_put.2 (.inl rfl), rfl⟩

theorem get_put_of_ne (h : k ≠ key r) : (s.put r).get k = s.get k := by
  refine Option.ext fun r' => ?_
  simp only [get_eq_some, mem_put]
  constructor
  · rintro ⟨rfl | ⟨hr', -⟩, hk⟩
    · exact absurd hk.symm h
    · exact ⟨hr', hk⟩
  · rintro ⟨hr', hk⟩
    exact ⟨.inr ⟨hr', fun hkey => h (hk.symm.trans hkey)⟩, hk⟩

theorem get_erase_of_ne {k' : K} (h : k ≠ k') : (s.erase k').get k = s.get k := by
  refine Option.ext fun r => ?_
  simp only [get_eq_some, mem_erase]
  constructor
  · rintro ⟨⟨hr, -⟩, hk⟩
    exact ⟨hr, hk⟩
  · rintro ⟨hr, hk⟩
    exact ⟨⟨hr, hk ▸ h⟩, hk⟩

theorem get_map {f : R → R} (h : ∀ r, key (f r) = key r) : (s.map f h).get k = (s.get k).map f := by
  rw [get, map, find?_map]
  simp only [Function.comp_def, h]
  rfl

/-- The first row with a property that only larger keys can have. -/
theorem find?_eq_some {p : R → Bool} : s.rows.find? p = some r ↔
    r ∈ s ∧ p r ∧ ∀ r' ∈ s, p r' → key r ≤ key r' := by
  constructor
  · intro h
    refine ⟨mem_of_find?_eq_some h, find?_some h, fun r' hr' hp => ?_⟩
    rcases eq_or_rel_of_find? s.sorted h hr' hp with rfl | hlt
    · exact le_rfl
    · exact hlt.le
  · rintro ⟨hr, hp, hmin⟩
    obtain ⟨r', hr'⟩ := exists_find?_eq_some hr hp
    rw [hr']
    rcases eq_or_rel_of_find? s.sorted hr' hr hp with rfl | hlt
    · rfl
    · exact absurd (hmin r' (mem_of_find?_eq_some hr') (find?_some hr')) hlt.not_ge

theorem seek_eq_some : s.seek k = some r ↔
    r ∈ s ∧ k ≤ key r ∧ ∀ r' ∈ s, k ≤ key r' → key r ≤ key r' := by
  simp only [seek, find?_eq_some, decide_eq_true_eq]

theorem seek_eq_none : s.seek k = none ↔ ∀ r ∈ s, key r < k := by
  simp [seek, mem_def, find?_eq_none]

/-- The last row of an ordered list. -/
theorem getLast?_eq_some (hl : l.Pairwise (key · < key ·)) :
    l.getLast? = some r ↔ r ∈ l ∧ ∀ r' ∈ l, key r' ≤ key r := by
  constructor
  · intro h
    refine ⟨mem_of_getLast? h, fun r' hr' => ?_⟩
    rcases eq_or_rel_of_getLast? hl h hr' with rfl | hlt
    · exact le_rfl
    · exact hlt.le
  · rintro ⟨hr, hmax⟩
    rcases l.eq_nil_or_concat with rfl | ⟨l, a, rfl⟩
    · cases hr
    · rw [concat_eq_append, getLast?_concat] at *
      rcases mem_concat.1 hr with hr | rfl
      · exact absurd (hmax a mem_concat_self) ((pairwise_concat.1 hl).2 r hr).not_ge
      · rfl

theorem prev_eq_some : s.prev k = some r ↔
    r ∈ s ∧ key r < k ∧ ∀ r' ∈ s, key r' < k → key r' ≤ key r := by
  rw [prev, getLast?_eq_some (s.sorted.filter _)]
  simp only [mem_filter, decide_eq_true_eq, and_imp, mem_def, and_assoc]

theorem prev_eq_none : s.prev k = none ↔ ∀ r ∈ s, k ≤ key r := by
  simp [prev, mem_def]

theorem seekToLast_eq_some : s.seekToLast = some r ↔ r ∈ s ∧ ∀ r' ∈ s, key r' ≤ key r :=
  getLast?_eq_some s.sorted

theorem seekToLast_eq_none : s.seekToLast = none ↔ ∀ r, r ∉ s := by
  simp [seekToLast, mem_def, getLast?_eq_none_iff, eq_nil_iff_forall_not_mem]

/-- Seeking a key and moving back finds the last row below the key, whether there is a
    row at or above the key or not. -/
theorem seekBefore_eq (s : OrderedStore key) (k : K) : s.seekBefore k = s.prev k := by
  rw [seekBefore]
  rcases hs : s.seek k with - | r
  · rw [seek_eq_none] at hs
    have : s.rows.filter (key · < k) = s.rows :=
      filter_eq_self.2 fun r hr => decide_eq_true (hs r hr)
    rw [prev, this]
    rfl
  · rw [seek_eq_some] at hs
    have : s.rows.filter (key · < key r) = s.rows.filter (key · < k) := by
      refine filter_congr fun r' hr' => ?_
      have : key r' < key r ↔ key r' < k :=
        ⟨fun h => lt_of_not_ge fun hk => (hs.2.2 r' hr' hk).not_gt h, fun h => h.trans_le hs.2.1⟩
      simp [this]
    simp only [prev, this]

end OrderedStore

end Redpanda.Lib
