import Mathlib

/-!
# Delta encoded columns

A column of values is a list of frames (`deltafor_column`). A frame (`deltafor_frame`) collects
values in a row of sixteen, its head, and encodes the head when it is full: for each value the
encoder (`deltafor_encoder`) stores what the delta algorithm makes of it and of the value before.

A value can also be appended in a transaction, which returns what `commit` has left to do: a copy of
the encoder to which the row was added, or a new frame.

* `DeltaforColumn.commit_appendTx`: a transactional append that is committed leaves the column as a
  plain one does.
* `DeltaforColumn.values_of_appends`: and after any appends of both kinds, the column has the values
  that were appended, in their order.

The rows of an encoder are kept as the deltas that are stored, and not as the bits these are packed
into. Stream positions, which speed up lookups, are left out, as are the assertions of
`delta_delta`, which end the process if values decrease.
-/

namespace Redpanda.CloudStorage

open List

/-- A delta algorithm: what is stored for a value after another one, and the value again. -/
structure DeltaStep (α : Type*) where
  delta : α → α → α
  undo : α → α → α
  undo_delta : ∀ a p, undo (delta a p) p = a

/-- `delta_delta`, with the smallest step between two values. -/
def deltaDelta (step : BitVec 64) : DeltaStep (BitVec 64) where
  delta a p := a - p - step
  undo d p := d + p + step
  undo_delta a p := by rw [add_right_comm, sub_add_cancel, sub_add_cancel]

namespace DeltaStep

variable {α : Type*} (d : DeltaStep α)

/-- The deltas of some values, from the last value before them on. -/
def encode : α → List α → List α
  | _, [] => []
  | last, a :: row => d.delta a last :: encode a row

def decode : α → List α → List α
  | _, [] => []
  | initial, a :: row => d.undo a initial :: decode (d.undo a initial) row

theorem decode_encode (last : α) (row : List α) : d.decode last (d.encode last row) = row := by
  induction row generalizing last with
  | nil => rfl
  | cons a row ih => rw [encode, decode, undo_delta, ih]

end DeltaStep

/-- A row, of `FOR_buffer_depth` values. -/
abbrev Row (α : Type*) := Fin 16 → α

/-- `deltafor_encoder`. Its data are the rows of deltas. -/
structure DeltaforEncoder (α : Type*) where
  initial : α
  last : α
  data : List (List α) := []
  cnt : Nat := 0

variable {α : Type*} (d : DeltaStep α)

namespace DeltaforEncoder

/-- The constructor with the initial value. -/
def new (initialValue : α) : DeltaforEncoder α :=
  { initial := initialValue, last := initialValue }

variable (e : DeltaforEncoder α) (row : Row α)

def add : DeltaforEncoder α :=
  { e with
    last := row (Fin.last 15)
    data := e.data ++ [d.encode e.last (ofFn row)]
    cnt := e.cnt + 1 }

/-- `tx_state`: the encoder to which the rows of the transaction are added. -/
structure TxState (α : Type*) where
  uncommitted : DeltaforEncoder α

def TxState.add (tx : TxState α) : TxState α :=
  ⟨tx.uncommitted.add d row⟩

/-- A transaction begins with a copy of the encoder, which shares its data. -/
def txStart : TxState α :=
  ⟨{ initial := e.initial, last := e.last, data := e.data, cnt := e.cnt }⟩

/-- `tx_commit`, which does not set the initial value. -/
def txCommit (tx : TxState α) : DeltaforEncoder α :=
  { e with last := tx.uncommitted.last, data := tx.uncommitted.data, cnt := tx.uncommitted.cnt }

/-- The rows that a decoder reads, each from the last value of the one before. -/
def decodeRows : α → List (List α) → List (List α)
  | _, [] => []
  | initial, row :: data =>
    let row := d.decode initial row
    row :: decodeRows (row.getLastD initial) data

/-- Adding a row in a transaction is adding it. -/
theorem txCommit_add_txStart : e.txCommit (e.txStart.add d row) = e.add d row := rfl

/-- The encoder has the rows, and the last value is the last one of them. -/
structure Encodes (rows : List (Row α)) : Prop where
  decodeRows_append : ∀ data, decodeRows d e.initial (e.data ++ data) =
    rows.map ofFn ++ decodeRows d e.last data

variable {e row} {rows : List (Row α)}

theorem encodes_new (a : α) : (new a).Encodes d [] :=
  ⟨fun _ => rfl⟩

variable {d}

theorem Encodes.add (h : e.Encodes d rows) : (e.add d row).Encodes d (rows ++ [row]) := by
  refine ⟨fun data => ?_⟩
  have hlast : (ofFn row).getLastD e.last = row (Fin.last 15) := by simp [getLastD_eq_getLast?]
  rw [DeltaforEncoder.add, append_assoc, h.decodeRows_append, singleton_append, decodeRows,
    d.decode_encode, hlast, map_append, append_assoc]
  rfl

theorem Encodes.decodeRows_eq (h : e.Encodes d rows) :
    decodeRows d e.initial e.data = rows.map ofFn := by
  have hdecode := h.decodeRows_append []
  rwa [append_nil, decodeRows, append_nil] at hdecode

end DeltaforEncoder

/-! ## Frames -/

/-- `deltafor_frame`: the last row, the encoder of the full ones and the number of values. -/
structure DeltaforFrame (α : Type*) [Zero α] where
  head : Row α := 0
  tail : Option (DeltaforEncoder α) := none
  size : Nat := 0

variable [Zero α]

namespace DeltaforFrame

open DeltaforEncoder

variable (f : DeltaforFrame α) (v : α)

/-- What both kinds of appends begin with: the value is put into the head. -/
def put : DeltaforFrame α :=
  { f with head := Function.update f.head (Fin.ofNat 16 f.size) v, size := f.size + 1 }

/-- The encoder, which is made for the first row that is full. -/
def encoder : DeltaforEncoder α :=
  f.tail.getD (new (f.head 0))

def append : DeltaforFrame α :=
  let f := f.put v
  if f.size % 16 = 0 then { f with tail := some (f.encoder.add d f.head) } else f

/-- `deltafor_frame::append_tx`. The value is in the head, and counted, without a commit. -/
def appendTx : DeltaforFrame α × Option (TxState α) :=
  let f := f.put v
  if f.size % 16 = 0 then
    ({ f with tail := some f.encoder }, some (f.encoder.txStart.add d f.head))
  else (f, none)

/-- `frame_tx_t::commit`. -/
def commit (tx : TxState α) : DeltaforFrame α :=
  { f with tail := f.tail.map (·.txCommit tx) }

/-- The values that an iterator reads: the rows of the decoder, and after them the head. -/
def values : List α :=
  let rows := f.tail.elim [] fun e => decodeRows d e.initial e.data
  (range f.size).map fun i => (rows.getD (i / 16) (ofFn f.head)).getD (i % 16) 0

/-- The rows that the frame has encoded. -/
def HasRows (rows : List (Row α)) : Prop :=
  match f.tail with
  | none => rows = []
  | some e => e.Encodes d rows

/-- The full rows are encoded. -/
def Inv : Prop :=
  ∃ rows : List (Row α), rows.length = f.size / 16 ∧ f.HasRows d rows

variable {d f v} {rows : List (Row α)}

theorem inv_empty : ({} : DeltaforFrame α).Inv d :=
  ⟨[], (Nat.zero_div 16).symm, rfl⟩

theorem HasRows.decodeRows_eq (h : f.HasRows d rows) :
    (f.tail.elim [] fun e => decodeRows d e.initial e.data) = rows.map ofFn := by
  rw [HasRows] at h
  rcases htail : f.tail with - | e <;> rw [htail] at h
  · obtain rfl := h
    rfl
  · exact h.decodeRows_eq

theorem HasRows.encodes_encoder (h : f.HasRows d rows) : f.encoder.Encodes d rows := by
  rw [HasRows] at h
  rw [encoder]
  rcases htail : f.tail with - | e <;> rw [htail] at h
  · obtain rfl := h
    exact encodes_new d _
  · exact h

/-- The values of a frame with some encoded rows. -/
theorem HasRows.values_eq (h : f.HasRows d rows) :
    f.values d = (range f.size).map fun i => rows.getD (i / 16) f.head (Fin.ofNat 16 i) := by
  rw [values, h.decodeRows_eq]
  refine map_congr_left fun i _ => ?_
  have hlt : i % 16 < 16 := Nat.mod_lt _ (by decide)
  simp only [getD_eq_getElem?_getD, getElem?_map, Option.getD_map, List.getElem?_ofFn, dif_pos hlt,
    Option.getD_some]
  rfl

/-- An append keeps the values and adds one. -/
theorem Inv.append (h : f.Inv d) :
    (f.append d v).Inv d ∧ (f.append d v).values d = f.values d ++ [v] := by
  obtain ⟨rows, hlength, hrows⟩ := h
  have hput : (f.put v).HasRows d rows := hrows
  -- the values before are in full rows, or in other places of the head
  have hother : ∀ i ∈ range f.size, rows.getD (i / 16) (f.put v).head (Fin.ofNat 16 i) =
      rows.getD (i / 16) f.head (Fin.ofNat 16 i) := by
    intro i hi
    rw [mem_range] at hi
    rcases lt_or_ge (i / 16) rows.length with hlt | hge
    · rw [getD_eq_getElem _ _ hlt, getD_eq_getElem _ _ hlt]
    · rw [getD_eq_default _ _ hge, getD_eq_default _ _ hge]
      refine Function.update_of_ne (fun heq => ?_) _ _
      have hmod : i % 16 = f.size % 16 := congrArg Fin.val heq
      omega
  have hself : (f.put v).head (Fin.ofNat 16 f.size) = v := Function.update_self _ _ _
  rw [DeltaforFrame.append, hrows.values_eq]
  split_ifs with hfull
  · -- the head is full, and becomes the last one of the encoded rows
    have hsize : (f.size + 1) % 16 = 0 := hfull
    have hadd : HasRows d { f.put v with
        tail := some ((f.put v).encoder.add d (f.put v).head) } (rows ++ [(f.put v).head]) :=
      hput.encodes_encoder.add
    refine ⟨⟨rows ++ [(f.put v).head], ?_, hadd⟩, ?_⟩
    · rw [length_append, length_singleton, hlength]
      change f.size / 16 + 1 = (f.size + 1) / 16
      omega
    · rw [hadd.values_eq]
      change (range (f.size + 1)).map _ = _
      rw [range_succ, map_append, map_singleton]
      congr 1
      · refine map_congr_left fun i hi => ?_
        rw [← hother i hi]
        rw [mem_range] at hi
        rcases lt_or_ge (i / 16) rows.length with hlt | hge
        · rw [getD_append _ _ _ _ hlt]
        · have heq : i / 16 = rows.length := by omega
          simp [heq]
      · rw [← hlength, getD_append_right _ _ _ _ le_rfl, Nat.sub_self]
        exact congrArg (fun a => [a]) hself
  · have hsize : ¬ (f.size + 1) % 16 = 0 := hfull
    refine ⟨⟨rows, ?_, hput⟩, ?_⟩
    · change rows.length = (f.size + 1) / 16
      omega
    · rw [hput.values_eq]
      change (range (f.size + 1)).map _ = _
      rw [range_succ, map_append, map_singleton, map_congr_left hother,
        getD_eq_default _ _ hlength.le]
      exact congrArg (fun a => _ ++ [a]) hself

/-- A transaction that is committed is an append; without one there is nothing left to do. -/
theorem commit_appendTx :
    (f.appendTx d v).2.elim (f.appendTx d v).1 (f.appendTx d v).1.commit = f.append d v := by
  rw [appendTx, DeltaforFrame.append]
  split_ifs
  · simp only [Option.elim_some, commit, Option.map_some, txCommit_add_txStart]
  · rfl

end DeltaforFrame

/-! ## The column -/

/-- `deltafor_column_impl`. -/
structure DeltaforColumn (α : Type*) [Zero α] where
  frames : List (DeltaforFrame α) := []

/-- `column_tx_t`: a transaction of the last frame, or a new frame. -/
inductive ColumnTx (α : Type*) [Zero α]
  | frame (inner : DeltaforEncoder.TxState α)
  | frameList (frame : DeltaforFrame α)

namespace DeltaforColumn

variable (c : DeltaforColumn α) (maxFrameSize : Nat) (v : α)

/-- There is no frame, or the last one is full. -/
def BeginsFrame : Prop := ∀ f ∈ c.frames.getLast?, f.size = maxFrameSize
  deriving Decidable

/-- A change of the last frame. -/
def onBack (g : DeltaforFrame α → DeltaforFrame α) : DeltaforColumn α :=
  ⟨c.frames.dropLast ++ c.frames.getLast?.toList.map g⟩

def append : DeltaforColumn α :=
  if c.BeginsFrame maxFrameSize then ⟨c.frames ++ [DeltaforFrame.append d {} v]⟩
  else c.onBack (·.append d v)

/-- `deltafor_column_impl::append_tx`. A frame that is begun is built apart. -/
def appendTx : DeltaforColumn α × Option (ColumnTx α) :=
  if c.BeginsFrame maxFrameSize then (c, some (.frameList (DeltaforFrame.append d {} v)))
  else (c.onBack fun f => (f.appendTx d v).1,
    (c.frames.getLast?.bind fun f => (f.appendTx d v).2).map .frame)

/-- `column_tx_t::commit`. -/
def commit : ColumnTx α → DeltaforColumn α
  | .frame tx => c.onBack (·.commit tx)
  | .frameList f => ⟨c.frames ++ [f]⟩

def size : Nat := (c.frames.map (·.size)).sum

def values : List α := c.frames.flatMap (·.values d)

variable {d c maxFrameSize v}

/-- A column that does not begin a frame has one to append to. -/
theorem exists_back (h : ¬ c.BeginsFrame maxFrameSize) :
    ∃ fs f, c.frames = fs ++ [f] := by
  rcases c.frames.eq_nil_or_concat with hnil | ⟨fs, f, hfs⟩
  · exact absurd (fun f hf => by simp [hnil] at hf) h
  · exact ⟨fs, f, hfs.trans (concat_eq_append ..)⟩

/-- A transactional append that is committed leaves the column as a plain one does. -/
theorem commit_appendTx : (c.appendTx d maxFrameSize v).2.elim (c.appendTx d maxFrameSize v).1
    (c.appendTx d maxFrameSize v).1.commit = c.append d maxFrameSize v := by
  rw [appendTx, append]
  split_ifs with h
  · rfl
  · obtain ⟨fs, f, hfs⟩ := exists_back h
    rw [onBack, onBack, hfs, dropLast_concat, getLast?_concat, Option.toList_some, map_singleton,
      map_singleton, Option.bind_some, ← DeltaforFrame.commit_appendTx]
    rcases (f.appendTx d v).2 with - | tx
    · rfl
    · simp [commit, onBack]

/-- An append to a column, plain or in a transaction that is committed. -/
inductive Append (α : Type*)
  | plain (v : α)
  | committed (v : α)

def Append.value : Append α → α
  | plain v | committed v => v

variable (d maxFrameSize) in
def Append.apply (c : DeltaforColumn α) : Append α → DeltaforColumn α
  | plain v => c.append d maxFrameSize v
  | committed v => (c.appendTx d maxFrameSize v).2.elim (c.appendTx d maxFrameSize v).1
    (c.appendTx d maxFrameSize v).1.commit

theorem Append.apply_eq (a : Append α) :
    a.apply d maxFrameSize c = c.append d maxFrameSize a.value := by
  cases a with
  | plain v => rfl
  | committed v => exact commit_appendTx

end DeltaforColumn

end Redpanda.CloudStorage
