import Redpanda.Lib.BinarySearch
import Redpanda.Lib.Pairwise
import Redpanda.Model.Fundamental

/-!
# Seeking in a level-one object

An object is a file of sections, each with batches of one partition. While a section is written
(`ObjectBuilder.addBatch`), batches at some distance get an entry in the index, with the maximum of
the timestamps up to and including the batch. The footer holds the index of each section.

* `filePositionBeforeKafkaOffset`: the last entry at or before an offset.
* `filePositionBeforeMaxTimestamp`: the first entry with a maximum at or above a timestamp. The
  batch that is looked for may be between this entry and the one before it, and then it is skipped
  (`exists_batch_skipped`).
* `yields_iff`: the first one finds the first batch, unless the default offset is looked for in a
  section without batches; and the second one does exactly if the batch with the timestamp is not
  between two entries of its section (`TimestampsIndexed`).

A file is modelled by its batches and their places. Serialization and the limits of integers are
left out. No section has the default id, which stands for none being open.
-/

namespace Redpanda.LevelOne.Object

open Lib Model List

/-- The header of a batch, with the number of bytes that are written of it. -/
structure Batch where
  baseOffset : Int
  lastOffset : Int
  maxTimestamp : Int
  size : Nat
  base_nonneg : 0 ≤ baseOffset
  base_le : baseOffset ≤ lastOffset
  size_pos : 0 < size

structure IndexEntry where
  filePosition : Nat
  kafkaOffset : Int
  maxTimestamp : Int

/-- `footer::partition`. -/
structure Partition where
  filePosition : Nat
  length : Nat := 0
  indexes : List IndexEntry := []
  firstOffset : Int := Offset.min
  lastOffset : Int := Offset.min
  maxTimestamp : Int := -1

/-! ## Building -/

/-- `add_batch`, for the section. -/
def Partition.add (P : Partition) (indexingInterval offset : Nat) (b : Batch) : Partition :=
  let P := { P with
    firstOffset := if P.firstOffset = Offset.min then b.baseOffset else P.firstOffset
    lastOffset := b.lastOffset
    maxTimestamp := max P.maxTimestamp b.maxTimestamp }
  let lastIndexWritePosition := P.indexes.getLast?.elim P.filePosition (·.filePosition)
  if indexingInterval ≤ offset - lastIndexWritePosition then
    { P with indexes := P.indexes ++ [⟨offset, b.baseOffset, P.maxTimestamp⟩] }
  else P

/-- `object_builder_impl`, with the batches in the file and their places. -/
structure ObjectBuilder (κ : Type*) where
  offset : Nat := 0
  file : List (Nat × Batch) := []
  /-- The sections in the footer, in the order in which they were written. -/
  index : List (κ × Partition) := []
  current : Option (κ × Partition) := none

/-- A section, with the size of its marker. -/
structure Section (κ : Type*) where
  tidp : κ
  marker : Nat
  batches : List Batch

variable {κ : Type*}

namespace ObjectBuilder

variable (x : ObjectBuilder κ) (indexingInterval : Nat)

def endPartition : ObjectBuilder κ :=
  match x.current with
  | none => x
  | some (p, P) =>
    { x with
      index := x.index ++ [(p, { P with length := x.offset - P.filePosition })]
      current := none }

def startPartition (tidp : κ) (marker : Nat) : ObjectBuilder κ :=
  { x.endPartition with
    offset := x.endPartition.offset + marker
    current := some (tidp, { filePosition := x.endPartition.offset + marker }) }

def addBatch (x : ObjectBuilder κ) (b : Batch) : ObjectBuilder κ :=
  { x with
    offset := x.offset + b.size
    file := x.file ++ [(x.offset, b)]
    current := x.current.map fun (p, P) => (p, P.add indexingInterval x.offset b) }

/-- All calls for a section. -/
def addSection (x : ObjectBuilder κ) (s : Section κ) : ObjectBuilder κ :=
  s.batches.foldl (addBatch indexingInterval) (x.startPartition s.tidp s.marker)

/-- The object with some sections, when it is finished. -/
def build (l : List (Section κ)) : ObjectBuilder κ :=
  (l.foldl (addSection indexingInterval) {}).endPartition

end ObjectBuilder

/-! ## Seeking -/

structure SeekResult where
  filePosition : Nat
  length : Nat

namespace Partition

variable (P : Partition)

/-- From the start of the section, or from an entry. -/
def seek : Option IndexEntry → SeekResult
  | none => ⟨P.filePosition, P.length⟩
  | some e => ⟨e.filePosition, P.length - (e.filePosition - P.filePosition)⟩

def entryBeforeOffset (target : Int) : Option IndexEntry :=
  P.indexes.reverse[lowerBound (target < ·.kafkaOffset) P.indexes.reverse]?

def entryBeforeTimestamp (target : Int) : Option IndexEntry :=
  let i := lowerBound (·.maxTimestamp < target) P.indexes
  if i = 0 then none else if i = P.indexes.length then P.indexes.getLast? else P.indexes[i]?

end Partition

/-- The first section with the least first offset. The order is named, as instance search may find
    one that does not compute. -/
def minPartition (l : List Partition) : Option Partition :=
  @argmin _ Int Int.instLinearOrder.toPreorder inferInstance Partition.firstOffset l

namespace ObjectBuilder

variable [DecidableEq κ] (x : ObjectBuilder κ) (p : κ) (target : Int)

def partitions : List Partition :=
  (x.index.filter (·.1 = p)).map Prod.snd

/-- The loop returns at the first section that has the target. Without such a section, it has found
    the first one after the target. The answer `none` is `npos`. -/
def filePositionBeforeKafkaOffset : Option SeekResult :=
  let candidates := (x.partitions p).filter fun P => ¬ P.lastOffset < target
  match candidates.find? fun P => ¬ target < P.firstOffset with
  | some P => some (P.seek (P.entryBeforeOffset target))
  | none => (minPartition candidates).map (·.seek none)

/-- The section in which a timestamp is looked for. -/
def timestampPartition : Option Partition :=
  minPartition ((x.partitions p).filter (target ≤ ·.maxTimestamp))

def filePositionBeforeMaxTimestamp : Option SeekResult :=
  (x.timestampPartition p target).map fun P => P.seek (P.entryBeforeTimestamp target)

end ObjectBuilder

/-- The batches in a range of the file. -/
def read (file : List (Nat × Batch)) (start stop : Nat) : List Batch :=
  (file.filter fun w => start ≤ w.1 ∧ w.1 < stop).map Prod.snd

def SeekResult.read (r : SeekResult) (file : List (Nat × Batch)) : List Batch :=
  Object.read file r.filePosition (r.filePosition + r.length)

/-- A section of the partition has the batch, which is wanted. -/
structure Wants (l : List (Section κ)) (p : κ) (wanted : Batch → Bool) (s : Section κ)
    (b : Batch) : Prop where
  mem : s ∈ l
  tidp : s.tidp = p
  mem_batches : b ∈ s.batches
  wanted : wanted b

/-- The range yields the first batch of the partition that is wanted, after earlier ones of its
    section. There is no range if there is no such batch. -/
def Yields (file : List (Nat × Batch)) (l : List (Section κ)) (p : κ) (wanted : Batch → Bool) :
    Option SeekResult → Prop
  | none => ∀ s b, ¬ Wants l p wanted s b
  | some r => ∃ s skipped earlier b later, s.batches = skipped ++ earlier ++ b :: later ∧
      r.read file = earlier ++ b :: later ∧ Wants l p wanted s b ∧
      ∀ s' b', Wants l p wanted s' b' → b.baseOffset ≤ b'.baseOffset

/-- All batches of `bs` are before those of `bs'`. -/
def Before (bs bs' : List Batch) : Prop :=
  ∀ b ∈ bs, ∀ b' ∈ bs', b.lastOffset < b'.baseOffset

/-- Batches are in the order of their offsets, and sections of one partition do not overlap. -/
structure Wf (l : List (Section κ)) : Prop where
  sorted : ∀ s ∈ l, s.batches.Pairwise fun b b' => b.lastOffset < b'.baseOffset
  disjoint : ∀ s ∈ l, ∀ s' ∈ l, s ≠ s' → s.tidp = s'.tidp →
    Before s.batches s'.batches ∨ Before s'.batches s.batches

/-- In the section where it is looked for, a batch reaches the timestamp, which for a timestamp that
    is not negative the footer says. And between an entry below the timestamp and the next one,
    which is not, no batch does. -/
def TimestampsIndexed [DecidableEq κ] (x : ObjectBuilder κ) (p : κ) (t : Int) : Prop :=
  ∀ P ∈ x.timestampPartition p t,
    (∃ w ∈ x.file, P.filePosition ≤ w.1 ∧ w.1 < P.filePosition + P.length ∧
      t ≤ w.2.maxTimestamp) ∧
    ∀ pre e e' post, P.indexes = pre ++ e :: e' :: post → e.maxTimestamp < t →
      t ≤ e'.maxTimestamp → ∀ w ∈ x.file, e.filePosition < w.1 → w.1 < e'.filePosition →
        w.2.maxTimestamp < t

/-! ## What the footer says -/

section

variable {file file' : List (Nat × Batch)} {start stop o : Nat} {b : Batch}

theorem mem_read : b ∈ read file start stop ↔ ∃ o, (o, b) ∈ file ∧ start ≤ o ∧ o < stop := by
  simp [read]

theorem read_append : read (file ++ file') start stop =
    read file start stop ++ read file' start stop := by
  rw [read, filter_append, map_append, read, read]

theorem read_cons (hle : start ≤ o) (hlt : o < stop) :
    read ((o, b) :: file) start stop = b :: read file start stop := by
  rw [read, filter_cons_of_pos (by simpa using And.intro hle hlt), map_cons, read]

/-- What is out of the range is not read. -/
theorem read_eq_nil (h : ∀ w ∈ file, w.1 < start ∨ stop ≤ w.1) : read file start stop = [] := by
  refine eq_nil_iff_forall_not_mem.2 fun b hb => ?_
  obtain ⟨o, hmem, hle, hlt⟩ := mem_read.1 hb
  exact (h _ hmem).elim (not_lt.2 hle) (not_le.2 hlt)

/-- Ranges with the same places. -/
theorem read_congr {start' stop' : Nat}
    (h : ∀ w ∈ file, start ≤ w.1 ∧ w.1 < stop ↔ start' ≤ w.1 ∧ w.1 < stop') :
    read file start stop = read file start' stop' :=
  congrArg (map Prod.snd) (filter_congr fun w hw => decide_eq_decide.2 (h w hw))

/-- A range is read in two parts. -/
theorem read_append_read {m : Nat} (hfile : file.Pairwise fun w w' => w.1 < w'.1)
    (hstart : start ≤ m) (hstop : m ≤ stop) :
    read file start m ++ read file m stop = read file start stop := by
  induction file with
  | nil => rfl
  | cons w file ih =>
    obtain ⟨hw, hfile⟩ := pairwise_cons.1 hfile
    have ih := ih hfile
    rcases lt_or_ge w.1 start with hlt | hge
    · simpa [read, hlt.not_ge, (hlt.trans_le hstart).not_ge] using ih
    rcases lt_or_ge w.1 m with hlt | hmid
    · simpa [read, hge, hlt, hlt.not_ge, hlt.trans_le hstop] using ih
    · -- all that is left is behind the middle
      have hall : ∀ w' ∈ w :: file, m ≤ w'.1 :=
        forall_mem_cons.2 ⟨hmid, fun w' hw' => hmid.trans (hw w' hw').le⟩
      rw [read_eq_nil fun w' hw' => .inr (hall w' hw'), nil_append]
      refine read_congr fun w' hw' => and_congr_left fun _ => ?_
      exact iff_of_true (hall w' hw') (hstart.trans (hall w' hw'))

/-- A range is read from a batch in it on. -/
theorem exists_read_split (hfile : file.Pairwise fun w w' => w.1 < w'.1) (hmem : (o, b) ∈ file)
    (hstart : start ≤ o) (hstop : o < stop) :
    ∃ pre rest, read file start stop = pre ++ b :: rest ∧ read file o stop = b :: rest ∧
      ∀ x ∈ pre, ∃ i, (i, x) ∈ file ∧ start ≤ i ∧ i < o := by
  obtain ⟨l₁, l₂, rfl⟩ := append_of_mem hmem
  obtain ⟨-, h₂, h₁⟩ := pairwise_append.1 hfile
  have h₁ : ∀ w ∈ l₁, w.1 < o := fun w hw => h₁ w hw _ mem_cons_self
  have heq : read l₂ start stop = read l₂ o stop := read_congr fun w hw => by
    have : o < w.1 := (pairwise_cons.1 h₂).1 w hw
    omega
  refine ⟨read l₁ start stop, read l₂ o stop, ?_, ?_, fun x hx => ?_⟩
  · rw [read_append, read_cons hstart hstop, heq]
  · rw [read_append, read_eq_nil fun w hw => .inl (h₁ w hw), read_cons le_rfl hstop, nil_append]
  · obtain ⟨i, hi, hle, -⟩ := mem_read.1 hx
    exact ⟨i, mem_append_left _ hi, hle, h₁ _ hi⟩

end

/-- What the footer says about a section with the batches `bs`, which ends at `stop`. -/
structure Summary (file : List (Nat × Batch)) (P : Partition) (stop : Nat) (bs : List Batch) :
    Prop where
  start_le : P.filePosition ≤ stop
  batches : read file P.filePosition stop = bs
  firstOffset : P.firstOffset = (bs.head?.map Batch.baseOffset).getD Offset.min
  lastOffset : P.lastOffset = (bs.getLast?.map Batch.lastOffset).getD Offset.min
  /-- Without batches, the maximum is `timestamp::missing`. -/
  maxTimestamp : ∀ t, t ≤ P.maxTimestamp ↔ t ≤ -1 ∨ ∃ b ∈ bs, t ≤ b.maxTimestamp
  sorted : P.indexes.Pairwise (·.filePosition < ·.filePosition)
  entry : ∀ e ∈ P.indexes, P.filePosition ≤ e.filePosition ∧ e.filePosition < stop ∧
    (∃ b, (e.filePosition, b) ∈ file ∧ e.kafkaOffset = b.baseOffset) ∧
    ∀ t, t ≤ e.maxTimestamp ↔ t ≤ -1 ∨
      ∃ b ∈ read file P.filePosition (e.filePosition + 1), t ≤ b.maxTimestamp

theorem summary_start (file : List (Nat × Batch)) (o : Nat) :
    Summary file { filePosition := o } o [] where
  start_le := le_rfl
  batches := read_eq_nil fun w _ => lt_or_ge w.1 o
  firstOffset := rfl
  lastOffset := rfl
  maxTimestamp t := by simp
  sorted := .nil
  entry e he := nomatch he

variable {file : List (Nat × Batch)} {P : Partition} {o stop : Nat} {bs : List Batch}

/-- What is written later does not concern a section. -/
theorem Summary.append (h : Summary file P stop bs) {more : List (Nat × Batch)}
    (hmore : ∀ w ∈ more, stop ≤ w.1) : Summary (file ++ more) P stop bs := by
  have hread : ∀ start stop', stop' ≤ stop →
      read (file ++ more) start stop' = read file start stop' := fun start stop' hle => by
    rw [read_append, read_eq_nil fun w hw => .inr (hle.trans (hmore w hw)), append_nil]
  refine ⟨h.start_le, (hread _ _ le_rfl).trans h.batches, h.firstOffset, h.lastOffset,
    h.maxTimestamp, h.sorted, fun e he => ?_⟩
  obtain ⟨hle, hlt, ⟨b, hb, heq⟩, hmax⟩ := h.entry e he
  rw [hread _ _ hlt]
  exact ⟨hle, hlt, ⟨b, mem_append_left _ hb, heq⟩, hmax⟩

/-- One more batch. -/
theorem Summary.add (h : Summary file P o bs) (hfile : ∀ w ∈ file, w.1 < o) (interval : Nat)
    (b : Batch) :
    Summary (file ++ [(o, b)]) (P.add interval o b) (o + b.size) (bs ++ [b]) := by
  have hread : ∀ stop, o < stop → read (file ++ [(o, b)]) P.filePosition stop = bs ++ [b] := by
    intro stop hlt
    have heq : read file P.filePosition stop = bs := by
      rw [← h.batches]
      refine read_congr fun w hw => ?_
      have := hfile w hw
      omega
    rw [read_append, heq, read_cons h.start_le hlt]
    rfl
  have hlt : o < o + b.size := Nat.lt_add_of_pos_right b.size_pos
  have hmax : ∀ t, t ≤ max P.maxTimestamp b.maxTimestamp ↔ t ≤ -1 ∨
      ∃ x ∈ bs ++ [b], t ≤ x.maxTimestamp := by
    intro t
    rw [le_max_iff, h.maxTimestamp t]
    simp only [mem_append, mem_singleton, or_and_right, exists_or, exists_eq_left, or_assoc]
  have hfirst : (if P.firstOffset = Offset.min then b.baseOffset else P.firstOffset) =
      ((bs ++ [b]).head?.map Batch.baseOffset).getD Offset.min := by
    rw [h.firstOffset]
    rcases bs with _ | ⟨y, bs⟩
    · exact if_pos rfl
    · refine if_neg (ne_of_gt (lt_of_lt_of_le ?_ y.base_nonneg))
      decide
  have hlast : b.lastOffset = ((bs ++ [b]).getLast?.map Batch.lastOffset).getD Offset.min := by
    rw [getLast?_concat]
    rfl
  have happend : Summary (file ++ [(o, b)]) P o bs :=
    h.append fun w hw => mem_singleton.1 hw ▸ le_rfl
  have hentry := fun e he => (happend.entry e he).imp_right (And.imp_left hlt.trans')
  rw [Partition.add]
  dsimp only
  split
  -- an index entry is written at the position of the batch
  · refine ⟨h.start_le.trans hlt.le, hread _ hlt, hfirst, hlast, hmax,
      pairwise_concat.2 ⟨h.sorted, fun e he => (h.entry e he).2.1⟩, fun e he => ?_⟩
    rcases mem_concat.1 he with he | rfl
    · exact hentry e he
    · rw [hread _ (Nat.lt_succ_self o)]
      exact ⟨h.start_le, hlt, ⟨b, by simp, rfl⟩, hmax⟩
  · exact ⟨h.start_le.trans hlt.le, hread _ hlt, hfirst, hlast, hmax, h.sorted, hentry⟩

/-! ## Sections -/

/-- The footer describes a section. -/
structure Describes (x : ObjectBuilder κ) (s : Section κ) (q : κ × Partition) : Prop where
  tidp : q.1 = s.tidp
  summary : Summary x.file q.2 (q.2.filePosition + q.2.length) s.batches
  stop : q.2.filePosition + q.2.length ≤ x.offset

/-- The footer describes all sections. -/
structure Built (l : List (Section κ)) (x : ObjectBuilder κ) : Prop where
  below : ∀ w ∈ x.file, w.1 < x.offset
  sorted : x.file.Pairwise fun w w' => w.1 < w'.1
  section_of_mem : ∀ q ∈ x.index, ∃ s ∈ l, Describes x s q
  entry_of_mem : ∀ s ∈ l, ∃ q ∈ x.index, Describes x s q

/-- A section is being written, with the batches `bs` so far. The object was `x₀` before. -/
structure Writing (x₀ : ObjectBuilder κ) (p : κ) (bs : List Batch) (x : ObjectBuilder κ) :
    Prop where
  below : ∀ w ∈ x.file, w.1 < x.offset
  sorted : x.file.Pairwise fun w w' => w.1 < w'.1
  current : ∃ P, x.current = some (p, P) ∧ Summary x.file P x.offset bs
  index : x.index = x₀.index
  offset : x₀.offset ≤ x.offset
  file : ∃ more, x.file = x₀.file ++ more ∧ ∀ w ∈ more, x₀.offset ≤ w.1

variable {x₀ x : ObjectBuilder κ} {p : κ} {l : List (Section κ)}

theorem Writing.addBatch (h : Writing x₀ p bs x) (interval : Nat) (b : Batch) :
    Writing x₀ p (bs ++ [b]) (x.addBatch interval b) := by
  obtain ⟨P, hP, hs⟩ := h.current
  obtain ⟨more, hfile, hmore⟩ := h.file
  have hlt : x.offset < x.offset + b.size := Nat.lt_add_of_pos_right b.size_pos
  refine ⟨forall_mem_concat.2 ⟨fun w hw => (h.below w hw).trans hlt, hlt⟩,
    pairwise_concat.2 ⟨h.sorted, h.below⟩, ⟨_, ?_, hs.add h.below interval b⟩, h.index,
    h.offset.trans hlt.le, more ++ [(x.offset, b)], ?_, forall_mem_concat.2 ⟨hmore, h.offset⟩⟩
  · rw [ObjectBuilder.addBatch, hP]
    rfl
  · rw [ObjectBuilder.addBatch, hfile, append_assoc]

theorem Writing.foldl (h : Writing x₀ p bs x) (interval : Nat) (bs' : List Batch) :
    Writing x₀ p (bs ++ bs') (bs'.foldl (ObjectBuilder.addBatch interval) x) := by
  induction bs' generalizing bs x with
  | nil => rwa [append_nil]
  | cons b bs' ih =>
    rw [append_cons]
    exact ih (h.addBatch interval b)

/-- One more section. -/
theorem Built.addSection (h : Built l x.endPartition) (interval : Nat) (s : Section κ) :
    Built (l ++ [s]) (x.addSection interval s).endPartition := by
  have hstart : Writing x.endPartition s.tidp [] (x.startPartition s.tidp s.marker) :=
    ⟨fun w hw => (h.below w hw).trans_le (Nat.le_add_right _ _), h.sorted,
      ⟨_, rfl, summary_start _ _⟩, rfl, Nat.le_add_right _ _, [], (append_nil _).symm,
      nofun⟩
  have hw : Writing x.endPartition s.tidp s.batches (x.addSection interval s) :=
    hstart.foldl interval s.batches
  generalize x.addSection interval s = y at hw
  obtain ⟨P, hP, hs⟩ := hw.current
  obtain ⟨more, hfile, hmore⟩ := hw.file
  have hend : y.endPartition = { y with
      index := x.endPartition.index ++ [(s.tidp, { P with length := y.offset - P.filePosition })]
      current := none } := by
    rw [ObjectBuilder.endPartition, hP]
    dsimp only
    rw [hw.index]
  -- the file only grows, so what the older entries describe is where it was
  have hold : ∀ s' q, Describes x.endPartition s' q → Describes y.endPartition s' q := by
    rw [hend]
    exact fun s' q hq => ⟨hq.tidp, hfile ▸ hq.summary.append fun w hw => hq.stop.trans (hmore w hw),
      hq.stop.trans hw.offset⟩
  -- the entry of the section reaches up to the position where the next one starts
  have hnew : Describes y.endPartition s
      (s.tidp, { P with length := y.offset - P.filePosition }) := by
    have hstop : P.filePosition + (y.offset - P.filePosition) = y.offset :=
      Nat.add_sub_cancel' hs.start_le
    rw [hend]
    refine ⟨rfl, ?_, hstop.le⟩
    dsimp only
    rw [hstop]
    exact { hs with }
  rw [hend] at hold hnew ⊢
  refine ⟨hw.below, hw.sorted, forall_mem_concat.2 ⟨fun q hq => ?_, s, mem_concat_self, hnew⟩,
    forall_mem_concat.2 ⟨fun s' hs' => ?_, _, mem_concat_self, hnew⟩⟩
  · obtain ⟨s', hs', hd⟩ := h.section_of_mem q hq
    exact ⟨s', mem_append_left _ hs', hold s' q hd⟩
  · obtain ⟨q, hq, hd⟩ := h.entry_of_mem s' hs'
    exact ⟨q, mem_append_left _ hq, hold s' q hd⟩

theorem built_build (interval : Nat) (l : List (Section κ)) :
    Built l (ObjectBuilder.build interval l) := by
  rw [ObjectBuilder.build]
  induction l using List.reverseRecOn with
  | nil =>
    exact ⟨nofun, .nil, nofun, nofun⟩
  | append_singleton l s ih =>
    rw [foldl_append]
    exact ih.addSection interval s

/-! ## The seeks -/

variable {s : Section κ} {q : κ × Partition} {t : Int} {wanted : Batch → Bool} {b : Batch}

theorem Summary.bounds (h : Summary file P stop bs)
    (hbs : bs.Pairwise fun b b' => b.lastOffset < b'.baseOffset) :
    ∀ b ∈ bs, P.firstOffset ≤ b.baseOffset ∧ b.lastOffset ≤ P.lastOffset := by
  intro b hb
  rw [h.firstOffset, h.lastOffset]
  constructor
  · rcases bs with _ | ⟨y, bs⟩
    · exact nomatch hb
    · rcases mem_cons.1 hb with rfl | hb
      · exact le_rfl
      · exact y.base_le.trans ((pairwise_cons.1 hbs).1 b hb).le
  · obtain ⟨y, hy⟩ := exists_getLast?_eq_some hb
    rw [hy]
    rcases eq_or_rel_of_getLast? hbs hy hb with rfl | hlt
    · exact le_rfl
    · exact hlt.le.trans y.base_le

theorem Summary.exists_firstOffset (h : Summary file P stop bs) (hb : b ∈ bs) :
    ∃ y ∈ bs, P.firstOffset = y.baseOffset := by
  obtain ⟨y, bs, rfl⟩ := exists_cons_of_ne_nil (ne_nil_of_mem hb)
  exact ⟨y, mem_cons_self, h.firstOffset⟩

/-- From an entry, or from the start of the section, the rest of the section is read. -/
theorem Describes.exists_read_seek (h : Describes x s q) (hx : Built l x)
    (hs : s.batches.Pairwise fun b b' => b.lastOffset < b'.baseOffset)
    {entry : Option IndexEntry} (hentry : ∀ e ∈ entry, e ∈ q.2.indexes) :
    ∃ pre, s.batches = pre ++ (q.2.seek entry).read x.file ∧
      ∀ b ∈ pre, ∃ e ∈ entry, b.lastOffset < e.kafkaOffset ∧
        ∃ i, (i, b) ∈ x.file ∧ q.2.filePosition ≤ i ∧ i < e.filePosition := by
  cases entry with
  | none => exact ⟨[], h.summary.batches.symm, nofun⟩
  | some e =>
    obtain ⟨hle, hlt, ⟨b, hb, heq⟩, -⟩ := h.summary.entry e (hentry e rfl)
    obtain ⟨pre, rest, hsplit, hread, hpre⟩ := exists_read_split hx.sorted hb hle hlt
    rw [h.summary.batches] at hsplit
    have hstop : e.filePosition + (q.2.length - (e.filePosition - q.2.filePosition)) =
        q.2.filePosition + q.2.length := by omega
    refine ⟨pre, ?_, fun b' hb' => ⟨e, rfl, ?_, hpre b' hb'⟩⟩
    · rw [SeekResult.read, Partition.seek, hstop, hread]
      exact hsplit
    · rw [heq]
      rw [hsplit] at hs
      exact (pairwise_append.1 hs).2.2 b' hb' b mem_cons_self

/-- The section has the first batch that is wanted. -/
theorem yields_of_section (hl : Wf l) {r : SeekResult} {pre : List Batch}
    (hw : Wants l p wanted s b) (hbs : s.batches = pre ++ r.read file)
    (hpre : ∀ b ∈ pre, ¬ wanted b)
    (hfirst : ∀ s' b', Wants l p wanted s' b' → ¬ Before s'.batches s.batches) :
    Yields file l p wanted (some r) := by
  have hb : b ∈ r.read file := (mem_append.1 (hbs ▸ hw.mem_batches)).resolve_left fun hmem =>
    hpre b hmem hw.wanted
  obtain ⟨b, hfind⟩ := exists_find?_eq_some hb hw.wanted
  obtain ⟨hwb, earlier, later, hread, hearlier⟩ := find?_eq_some_iff_append.1 hfind
  have hsplit : s.batches = pre ++ earlier ++ b :: later := by rw [hbs, hread, append_assoc]
  have hmem : b ∈ s.batches := hsplit ▸ mem_append_right _ mem_cons_self
  refine ⟨s, pre, earlier, b, later, hsplit, hread, ⟨hw.mem, hw.tidp, hmem, hwb⟩,
    fun s' b' hw' => ?_⟩
  by_cases heq : s = s'
  · -- nothing before `b` in its own section is wanted
    subst heq
    have hsorted := hl.sorted s hw.mem
    have hb' := hw'.mem_batches
    rw [hsplit, pairwise_append, pairwise_cons] at hsorted
    rw [hsplit, mem_append, mem_append, mem_cons] at hb'
    rcases hb' with (hb' | hb') | rfl | hb'
    · exact absurd hw'.wanted (hpre b' hb')
    · have hnot := hearlier b' hb'
      simp [hw'.wanted] at hnot
    · exact le_rfl
    · exact b.base_le.trans (hsorted.2.1.1 b' hb').le
  · have htidp := hw.tidp.trans hw'.tidp.symm
    have hbefore := (hl.disjoint s hw.mem s' hw'.mem heq htidp).resolve_right (hfirst s' b' hw')
    exact b.base_le.trans (hbefore b hmem b' hw'.mem_batches).le

theorem of_mem_entryBeforeOffset {e : IndexEntry} (he : e ∈ P.entryBeforeOffset t) :
    e ∈ P.indexes ∧ e.kafkaOffset ≤ t := by
  have hnot := not_of_lowerBound_eq rfl he
  rw [decide_eq_true_iff, not_lt] at hnot
  exact ⟨mem_reverse.1 (mem_of_getElem? he), hnot⟩

/-- The entry is below the timestamp, or the one before it is and it is not. -/
theorem of_mem_entryBeforeTimestamp {e : IndexEntry} (he : e ∈ P.entryBeforeTimestamp t) :
    e ∈ P.indexes ∧ (e.maxTimestamp < t ∨ ∃ pre e' post, P.indexes = pre ++ e' :: e :: post ∧
      e'.maxTimestamp < t ∧ t ≤ e.maxTimestamp) := by
  rw [Partition.entryBeforeTimestamp] at he
  split at he
  · exact nomatch he
  rename_i hpos
  obtain ⟨j, e', hj, he', hlt⟩ := exists_of_lowerBound_pos (Nat.pos_of_ne_zero hpos)
  rw [decide_eq_true_iff] at hlt
  split at he
  · rename_i hlength
    rw [getLast?_eq_getElem?, ← hlength, hj, Nat.add_sub_cancel, he'] at he
    cases he
    exact ⟨mem_of_getElem? he', .inl hlt⟩
  · have hnot := not_of_lowerBound_eq rfl he
    rw [decide_eq_true_iff, not_lt] at hnot
    rw [hj] at he
    obtain ⟨hj₁, rfl⟩ := List.getElem?_eq_some_iff.1 he'
    obtain ⟨hj₂, rfl⟩ := List.getElem?_eq_some_iff.1 he
    refine ⟨getElem_mem hj₂, .inr ⟨P.indexes.take j, _, P.indexes.drop (j + 2), ?_, hlt, hnot⟩⟩
    rw [← drop_eq_getElem_cons hj₂, ← drop_eq_getElem_cons hj₁, take_append_drop]

/-- The maxima of the entries increase. -/
theorem Summary.pairwise_maxTimestamp (h : Summary file P stop bs) :
    P.indexes.Pairwise (·.maxTimestamp ≤ ·.maxTimestamp) := by
  refine h.sorted.imp_of_mem fun {e e'} he he' hlt => ?_
  rw [(h.entry e' he').2.2.2]
  refine (((h.entry e he).2.2.2 e.maxTimestamp).1 le_rfl).imp_right ?_
  rintro ⟨b, hb, hle⟩
  obtain ⟨i, hi, hstart, hstop⟩ := mem_read.1 hb
  exact ⟨b, mem_read.2 ⟨i, hi, hstart, by omega⟩, hle⟩

/-- The entry that is found between one below the timestamp and one that is not. -/
theorem Summary.entryBeforeTimestamp_eq (h : Summary file P stop bs) {pre post : List IndexEntry}
    {e e' : IndexEntry} (heq : P.indexes = pre ++ e :: e' :: post) (hlt : e.maxTimestamp < t)
    (hle : t ≤ e'.maxTimestamp) : P.entryBeforeTimestamp t = some e' := by
  have hsorted := h.pairwise_maxTimestamp
  rw [append_cons] at heq
  rw [heq, pairwise_append, pairwise_cons] at hsorted
  have hbound : lowerBound (fun e => decide (e.maxTimestamp < t)) P.indexes =
      (pre ++ [e]).length := by
    rw [heq]
    refine lowerBound_append (forall_mem_concat.2 ⟨fun e₀ he₀ => ?_, decide_eq_true hlt⟩)
      fun e₁ he₁ => ?_
    · have := (pairwise_concat.1 hsorted.1).2 e₀ he₀
      exact decide_eq_true (this.trans_lt hlt)
    · rw [decide_eq_true_iff, not_lt]
      rcases mem_cons.1 he₁ with rfl | he₁
      · exact hle
      · exact hle.trans (hsorted.2.1.1 e₁ he₁)
  rw [Partition.entryBeforeTimestamp, hbound, if_neg (by simp), if_neg (by rw [heq]; simp), heq,
    getElem?_append_right le_rfl, Nat.sub_self]
  rfl

/-- The first candidate has the first batch that is wanted, if all sections with such batches are
    candidates and what is skipped of it is not wanted. -/
theorem yields_minPartition (hl : Wf l) {candidates : List Partition}
    {seek : Partition → SeekResult}
    (hcand : ∀ s b, Wants l p wanted s b → ∃ P ∈ candidates, Describes x s (p, P))
    (hsection : ∀ P ∈ minPartition candidates, ∃ s b, Wants l p wanted s b ∧
      Describes x s (p, P) ∧
      ∃ pre, s.batches = pre ++ (seek P).read x.file ∧ ∀ b ∈ pre, ¬ wanted b) :
    Yields x.file l p wanted ((minPartition candidates).map seek) := by
  rcases hmin : minPartition candidates with _ | P
  · rw [minPartition, argmin_eq_none] at hmin
    intro s b hw
    obtain ⟨P, hP, -⟩ := hcand s b hw
    exact nomatch hmin ▸ hP
  · obtain ⟨s, b, hw, hd, pre, hbs, hpre⟩ := hsection P hmin
    refine yields_of_section hl hw hbs hpre fun s' b' hw' hbefore => ?_
    -- the section with the least first offset is not after another one
    obtain ⟨P', hP', hd'⟩ := hcand s' b' hw'
    obtain ⟨y, hy, heq⟩ := hd.summary.exists_firstOffset hw.mem_batches
    have hle := le_of_mem_argmin hP' hmin
    have hbounds := (hd'.summary.bounds (hl.sorted s' hw'.mem) b' hw'.mem_batches).1
    have hlt := hbefore b' hw'.mem_batches y hy
    have hbase := b'.base_le
    dsimp only at heq hbounds
    omega

variable [DecidableEq κ]

theorem mem_partitions : P ∈ x.partitions p ↔ (p, P) ∈ x.index := by
  simp [ObjectBuilder.partitions]

/-- Each section of the partition is in the footer. -/
theorem Built.exists_partition (hx : Built l x) (hw : Wants l p wanted s b) :
    ∃ P ∈ x.partitions p, Describes x s (p, P) := by
  obtain ⟨⟨p', P⟩, hq, hd⟩ := hx.entry_of_mem s hw.mem
  obtain rfl : p' = p := hd.tidp.trans hw.tidp
  exact ⟨P, mem_partitions.2 hq, hd⟩

theorem yields_filePositionBeforeKafkaOffset (hl : Wf l) (hx : Built l x)
    (ht : Offset.min < t ∨ ∀ s ∈ l, s.tidp = p → s.batches ≠ []) :
    Yields x.file l p (t ≤ ·.lastOffset) (x.filePositionBeforeKafkaOffset p t) := by
  rw [ObjectBuilder.filePositionBeforeKafkaOffset]
  generalize hcands : (x.partitions p).filter (fun P => decide ¬ P.lastOffset < t) = candidates
  have hmem : ∀ P, P ∈ candidates ↔ P ∈ x.partitions p ∧ t ≤ P.lastOffset := fun P => by
    rw [← hcands, mem_filter, decide_eq_true_iff, not_lt]
  -- the last batch of a candidate is wanted
  have hsection : ∀ P ∈ candidates, ∃ s b, Wants l p (t ≤ ·.lastOffset) s b ∧
      Describes x s (p, P) := by
    intro P hP
    obtain ⟨hP, hle⟩ := (hmem P).1 hP
    obtain ⟨s, hs, hd⟩ := hx.section_of_mem _ (mem_partitions.1 hP)
    have hlast : P.lastOffset = _ := hd.summary.lastOffset
    rcases hb : s.batches.getLast? with _ | b
    · rw [hb] at hlast
      rcases ht with ht | hne
      · exact absurd (ht.trans_le hle) (Eq.not_gt hlast)
      · exact absurd (getLast?_eq_none_iff.1 hb) (hne s hs hd.tidp.symm)
    · rw [hb] at hlast
      exact ⟨s, b, ⟨hs, hd.tidp.symm, mem_of_getLast? hb, decide_eq_true (hle.trans_eq hlast)⟩, hd⟩
  have hcand : ∀ s b, Wants l p (t ≤ ·.lastOffset) s b →
      ∃ P ∈ candidates, Describes x s (p, P) := by
    intro s b hw
    obtain ⟨P, hP, hd⟩ := hx.exists_partition hw
    exact ⟨P, (hmem P).2 ⟨hP, (of_decide_eq_true hw.wanted).trans
      (hd.summary.bounds (hl.sorted s hw.mem) b hw.mem_batches).2⟩, hd⟩
  split
  · rename_i P hfind
    obtain ⟨s, b, hw, hd⟩ := hsection P (mem_of_find?_eq_some hfind)
    have hfirst := find?_some hfind
    rw [decide_eq_true_iff, not_lt] at hfirst
    obtain ⟨pre, hbs, hpre⟩ := hd.exists_read_seek hx (hl.sorted s hw.mem)
      fun e he => (of_mem_entryBeforeOffset he).1
    refine yields_of_section hl hw hbs (fun b hb => ?_) fun s' b' hw' hbefore => ?_
    · obtain ⟨e, he, hlt, -⟩ := hpre b hb
      rw [decide_eq_true_iff, not_le]
      exact hlt.trans_le (of_mem_entryBeforeOffset he).2
    · obtain ⟨y, hy, heq⟩ := hd.summary.exists_firstOffset hw.mem_batches
      have hlt := hbefore b' hw'.mem_batches y hy
      have := of_decide_eq_true hw'.wanted
      dsimp only at heq
      omega
  · refine yields_minPartition hl hcand fun P hP => ?_
    obtain ⟨s, b, hw, hd⟩ := hsection P (argmin_mem hP)
    exact ⟨s, b, hw, hd, [], hd.summary.batches.symm, nofun⟩

/-- The section in which the default offset is found has no batches. -/
theorem not_yields_of_nil (hl : Wf l) (hx : Built l x) (hs : s ∈ l) (htidp : s.tidp = p)
    (hnil : s.batches = []) : ¬ Yields x.file l p (Offset.min ≤ ·.lastOffset)
      (x.filePositionBeforeKafkaOffset p Offset.min) := by
  rw [ObjectBuilder.filePositionBeforeKafkaOffset]
  generalize hcands :
    (x.partitions p).filter (fun P => decide ¬ P.lastOffset < Offset.min) = candidates
  -- the section itself is a candidate that has the offset
  obtain ⟨⟨p', P₀⟩, hq, hd₀⟩ := hx.entry_of_mem s hs
  obtain rfl : p' = p := hd₀.tidp.trans htidp
  have hfirst₀ : P₀.firstOffset = Offset.min := by
    rw [hd₀.summary.firstOffset, hnil]
    rfl
  have hlast₀ : P₀.lastOffset = Offset.min := by
    rw [hd₀.summary.lastOffset, hnil]
    rfl
  have hmem₀ : P₀ ∈ candidates := by
    rw [← hcands, mem_filter, hlast₀]
    exact ⟨mem_partitions.2 hq, decide_eq_true (lt_irrefl _)⟩
  obtain ⟨P, hfind⟩ := exists_find?_eq_some
    (p := fun P : Partition => decide ¬ Offset.min < P.firstOffset) hmem₀
    (by rw [hfirst₀]; exact decide_eq_true (lt_irrefl _))
  simp only [hfind]
  -- and any section that has it has no batches
  have hle := find?_some hfind
  rw [decide_eq_true_iff, not_lt] at hle
  have hP := mem_of_find?_eq_some hfind
  rw [← hcands, mem_filter] at hP
  obtain ⟨s', hs', hd⟩ := hx.section_of_mem _ (mem_partitions.1 hP.1)
  have hempty : s'.batches = [] := by
    by_contra hne
    obtain ⟨b, hb⟩ := exists_mem_of_ne_nil _ hne
    obtain ⟨y, -, heq⟩ := hd.summary.exists_firstOffset hb
    have hbase := y.base_nonneg
    rw [← heq] at hbase
    exact absurd (hbase.trans hle) (by decide)
  obtain ⟨pre, hbs, -⟩ := hd.exists_read_seek hx (hl.sorted s' hs')
    fun e he => (of_mem_entryBeforeOffset (t := Offset.min) he).1
  rw [hempty] at hbs
  rintro ⟨-, -, earlier, b, later, -, hread, -⟩
  rw [hread] at hbs
  simp at hbs

/-- If the seek finds the right batch, nothing that it should have found is between the entries. -/
theorem timestampsIndexed_of_yields (hl : Wf l) (hx : Built l x)
    (h : Yields x.file l p (t ≤ ·.maxTimestamp) (x.filePositionBeforeMaxTimestamp p t)) :
    TimestampsIndexed x p t := by
  intro P hP
  rw [ObjectBuilder.filePositionBeforeMaxTimestamp] at h
  have hmin : x.timestampPartition p t = some P := hP
  rw [hmin] at h
  obtain ⟨s', -, earlier, b, later, -, hread, hw, hfirst⟩ := h
  have hb : b ∈ (P.seek (P.entryBeforeTimestamp t)).read x.file :=
    hread ▸ mem_append_right _ mem_cons_self
  obtain ⟨s, hs, hd⟩ := hx.section_of_mem _ (mem_partitions.1 (mem_filter.1 (argmin_mem hmin)).1)
  obtain ⟨pre, hbs, -⟩ := hd.exists_read_seek hx (hl.sorted s hs)
    fun e he => (of_mem_entryBeforeTimestamp (t := t) he).1
  have hsummary := hd.summary
  refine ⟨?_, fun pre' e e' post heq hlt hle w hwfile hafter hbefore => ?_⟩
  · have hmem : b ∈ read x.file P.filePosition (P.filePosition + P.length) :=
      hsummary.batches ▸ hbs ▸ mem_append_right _ hb
    obtain ⟨i, hi, hstart, hstop⟩ := mem_read.1 hmem
    exact ⟨(i, b), hi, hstart, hstop, of_decide_eq_true hw.wanted⟩
  · by_contra hge
    obtain ⟨hstart, -, -⟩ := hsummary.entry e (heq ▸ by simp)
    obtain ⟨-, hstop, -⟩ := hsummary.entry e' (heq ▸ by simp)
    dsimp only at hstart hstop hsummary
    have hrest : e'.filePosition + (P.length - (e'.filePosition - P.filePosition)) =
        P.filePosition + P.length := by omega
    rw [hsummary.entryBeforeTimestamp_eq heq hlt hle, SeekResult.read, Partition.seek, hrest] at hb
    -- the batch is read before those from the entry on
    have hsplit := read_append_read (m := e'.filePosition) hx.sorted
      (hstart.trans (hafter.trans hbefore).le) hstop.le
    rw [hsummary.batches] at hsplit
    have hskipped : w.2 ∈ read x.file P.filePosition e'.filePosition :=
      mem_read.2 ⟨w.1, hwfile, hstart.trans hafter.le, hbefore⟩
    have hsorted := hl.sorted s hs
    rw [← hsplit, pairwise_append] at hsorted
    have hwants : Wants l p (t ≤ ·.maxTimestamp) s w.2 :=
      ⟨hs, hd.tidp.symm, hsplit ▸ mem_append_left _ hskipped, decide_eq_true (not_lt.1 hge)⟩
    have hbase := hfirst s w.2 hwants
    have hlast := hsorted.2.2 w.2 hskipped b hb
    have := w.2.base_le
    omega

theorem yields_filePositionBeforeMaxTimestamp (hl : Wf l) (hx : Built l x)
    (hindexed : TimestampsIndexed x p t) :
    Yields x.file l p (t ≤ ·.maxTimestamp) (x.filePositionBeforeMaxTimestamp p t) := by
  refine yields_minPartition hl (fun s b hw => ?_) fun P hP => ?_
  · obtain ⟨P, hP, hd⟩ := hx.exists_partition hw
    refine ⟨P, mem_filter.2 ⟨hP, decide_eq_true ?_⟩, hd⟩
    exact (hd.summary.maxTimestamp t).2 (.inr ⟨b, hw.mem_batches, of_decide_eq_true hw.wanted⟩)
  · obtain ⟨⟨w, hwfile, hwstart, hwstop, hwmax⟩, hindexed⟩ := hindexed P hP
    obtain ⟨s, hs, hd⟩ := hx.section_of_mem _
      (mem_partitions.1 (mem_filter.1 (argmin_mem hP)).1)
    have hb : w.2 ∈ s.batches :=
      hd.summary.batches ▸ mem_read.2 ⟨w.1, hwfile, hwstart, hwstop⟩
    obtain ⟨pre, hbs, hpre⟩ := hd.exists_read_seek hx (hl.sorted s hs)
      fun e he => (of_mem_entryBeforeTimestamp he).1
    refine ⟨s, w.2, ⟨hs, hd.tidp.symm, hb, decide_eq_true hwmax⟩, hd, pre, hbs, fun b hb => ?_⟩
    obtain ⟨e, he, -, i, hi, hstart, hlt⟩ := hpre b hb
    rw [decide_eq_true_iff, not_le]
    -- a batch up to an entry below the timestamp is below it
    have hbelow : ∀ e ∈ P.indexes, e.maxTimestamp < t → i ≤ e.filePosition →
        b.maxTimestamp < t := fun e he hlt hle => not_le.1 fun hge =>
      not_le.2 hlt (((hd.summary.entry e he).2.2.2 t).2
        (.inr ⟨b, mem_read.2 ⟨i, hi, hstart, Nat.lt_succ_of_le hle⟩, hge⟩))
    obtain ⟨hmem, hmax | ⟨l₁, e', l₂, heq, hmax', hmax⟩⟩ := of_mem_entryBeforeTimestamp he
    · exact hbelow e hmem hmax hlt.le
    · rcases le_or_gt i e'.filePosition with hle | hgt
      · exact hbelow e' (heq ▸ by simp) hmax' hle
      · exact hindexed l₁ e' e l₂ heq hmax' hmax (i, b) hi hgt hlt

/-- The seek for an offset finds the first batch, unless it is the default one and a section has no
    batches. The seek for a timestamp finds the first batch exactly if it is not between two entries
    of its section. -/
theorem yields_iff (hl : Wf l) (indexingInterval : Nat) (p : κ) :
    let x := ObjectBuilder.build indexingInterval l
    (∀ o, Offset.min ≤ o → (Yields x.file l p (o ≤ ·.lastOffset)
      (x.filePositionBeforeKafkaOffset p o) ↔
        Offset.min < o ∨ ∀ s ∈ l, s.tidp = p → s.batches ≠ [])) ∧
    ∀ t, Yields x.file l p (t ≤ ·.maxTimestamp) (x.filePositionBeforeMaxTimestamp p t) ↔
      TimestampsIndexed x p t := by
  have hx := built_build indexingInterval l
  refine ⟨fun o ho => ⟨fun h => ?_, yields_filePositionBeforeKafkaOffset hl hx⟩, fun t =>
    ⟨timestampsIndexed_of_yields hl hx, yields_filePositionBeforeMaxTimestamp hl hx⟩⟩
  rcases ho.lt_or_eq with hlt | rfl
  · exact .inl hlt
  · exact .inr fun s hs htidp hnil => not_yields_of_nil hl hx hs htidp hnil h

/-- A section of batches with one offset and ten bytes each. -/
def sectionOf (p : Bool) (timestamps : List Int) : Section Bool :=
  ⟨p, 3, timestamps.zipIdx.map fun (t, i) =>
    ⟨i, i, t, 10, Int.natCast_nonneg i, le_rfl, by decide⟩⟩

/-- Two partitions, whose sections have two entries each. The first batch of the one that reaches
    the timestamp has an entry; the one of the other has not. -/
theorem yields_two_partitions :
    let l := [sectionOf true [1, 1, 2, 1, 5], sectionOf false [1, 1, 1, 5, 1]]
    let x := ObjectBuilder.build 20 l
    Yields x.file l true (1 ≤ ·.lastOffset) (x.filePositionBeforeKafkaOffset true 1) ∧
      Yields x.file l true (5 ≤ ·.maxTimestamp) (x.filePositionBeforeMaxTimestamp true 5) := by
  intro l x
  have hl : Wf l := ⟨by simp [l, sectionOf], by simp [l, sectionOf]⟩
  have hindexed : TimestampsIndexed x true 5 := by
    intro P hP
    obtain rfl : ⟨3, 50, [⟨23, 2, 2⟩, ⟨43, 4, 5⟩], 0, 4, 5⟩ = P := Option.some.inj hP
    refine ⟨⟨_, mem_of_getElem? (i := 4) rfl, by decide⟩, fun pre e e' post heq _ _ => ?_⟩
    -- there are two entries, and a batch without timestamp between them
    obtain ⟨rfl, rfl⟩ : e = ⟨23, 2, 2⟩ ∧ e' = ⟨43, 4, 5⟩ := by
      rcases pre with _ | ⟨a, _ | ⟨a', pre⟩⟩ <;> simp_all
    decide
  obtain ⟨hoffset, htimestamp⟩ := yields_iff hl 20 true
  exact ⟨(hoffset 1 (by decide)).2 (.inl (by decide)), (htimestamp 5).2 hindexed⟩

/-- The batch with the timestamp is between two entries, and the seek starts at the second one. -/
theorem exists_batch_skipped :
    let l := [sectionOf true [1, 1, 1, 5, 1]]
    let x := ObjectBuilder.build 20 l
    Wf l ∧
      ¬ Yields x.file l true (5 ≤ ·.maxTimestamp) (x.filePositionBeforeMaxTimestamp true 5) := by
  refine ⟨⟨by simp [sectionOf], by simp⟩, fun hyields => ?_⟩
  have hseek : (ObjectBuilder.build 20
      [sectionOf true [1, 1, 1, 5, 1]]).filePositionBeforeMaxTimestamp true 5 = some ⟨43, 10⟩ := rfl
  rw [hseek] at hyields
  obtain ⟨s, skipped, earlier, b, later, -, hread, hw, -⟩ := hyields
  have hall : ∀ b ∈ SeekResult.read ⟨43, 10⟩
      (ObjectBuilder.build 20 [sectionOf true [1, 1, 1, 5, 1]]).file,
      ¬ decide (5 ≤ b.maxTimestamp) := by decide
  exact hall b (hread ▸ mem_append_right _ mem_cons_self) hw.wanted

end Redpanda.LevelOne.Object
