import Redpanda.Lib.Varint

/-!
# Records

A record is written as its size, an attribute byte, its timestamp and offset deltas, key, value
and headers, all lengths and deltas as signed varints (`appendRecordToBuffer`). A negative size of
a key or a value stands for none. The parser (`parseOneRecordFromBuffer`) answers `none` where the
source throws.

* `Record.Wf`: the sizes of a record are those of its data, and fit their fields.
* `parseOneRecordFromBuffer_append`: parsing a record that was written gives it back, and leaves
  the bytes after it.
* `parseRecords_flatMap`: the same for all records of a batch.
-/

namespace Redpanda.Model

open Lib.Varint List
open Option (bind_eq_bind bind_some not_mem_none)

abbrev Bytes := List UInt8

/-- `model::record_header`. -/
structure RecordHeader where
  keySize : Int
  key : Bytes
  valueSize : Int
  value : Bytes
  deriving DecidableEq

/-- `model::record`. -/
structure Record where
  sizeBytes : Int
  attributes : UInt8
  timestampDelta : Int
  offsetDelta : Int
  keySize : Int
  key : Bytes
  valueSize : Int
  value : Bytes
  headers : List RecordHeader
  deriving DecidableEq

/-- The conversion to `int32_t`. -/
def toInt32 (v : Int) : Int :=
  v.bmod (2 ^ 32)

/-- A number that fits `int32_t`. -/
def FitsInt32 (v : Int) : Prop :=
  -2 ^ 31 ≤ v ∧ v < 2 ^ 31
  deriving Decidable

/-! ## Writing -/

/-- The size of a key or a value, and its bytes if there are any. -/
def appendSized (size : Int) (data : Bytes) : Bytes :=
  writeSigned size ++ if 0 < size then data else []

def RecordHeader.append (h : RecordHeader) : Bytes :=
  appendSized h.keySize h.key ++ appendSized h.valueSize h.value

namespace Record

/-- What follows the size of a record. -/
def body (r : Record) : Bytes :=
  r.attributes :: (writeSigned r.timestampDelta ++ (writeSigned r.offsetDelta ++
    (appendSized r.keySize r.key ++ (appendSized r.valueSize r.value ++
      (writeSigned r.headers.length ++ r.headers.flatMap RecordHeader.append)))))

/-- `append_record_to_buffer`: the bytes appended for a record. -/
def appendRecordToBuffer (r : Record) : Bytes :=
  writeSigned r.sizeBytes ++ r.body

end Record

/-! ## Parsing -/

/-- A size, and as many bytes if it is positive. A size beyond `limit`, and one beyond the end of
    the bytes, is out of range. -/
def readSized (limit : Option Int) (l : Bytes) : Option ((Int × Bytes) × Bytes) :=
  let r := readSigned l
  if 0 < r.1 then
    if (∃ n ∈ limit, n < r.1) ∨ (r.2.length : Int) < r.1 then none
    else some ((toInt32 r.1, r.2.take r.1.toNat), r.2.drop r.1.toNat)
  else some ((toInt32 r.1, []), r.2)

/-- The loop of `parse_record_headers`. -/
def parseHeaders : Nat → Bytes → Option (List RecordHeader × Bytes)
  | 0, l => some ([], l)
  | n + 1, l => do
    let (key, l) ← readSized none l
    let (value, l) ← readSized none l
    let (hs, l) ← parseHeaders n l
    return (⟨key.1, key.2, value.1, value.2⟩ :: hs, l)

/-- `parse_record_headers`. -/
def parseRecordHeaders (l : Bytes) : Option (List RecordHeader × Bytes) :=
  let r := readSigned l
  if r.1 < 0 ∨ (r.2.length : Int) < r.1 then none else parseHeaders r.1.toNat r.2

/-- `do_parse_one_record_from_buffer`. -/
def doParseOneRecord (recordSize : Int) (attributes : UInt8) (l : Bytes) :
    Option (Record × Bytes) := do
  let timestampDelta := readSigned l
  let offsetDelta := readSigned timestampDelta.2
  let (key, l) ← readSized (some recordSize) offsetDelta.2
  let (value, l) ← readSized (some recordSize) l
  let (headers, l) ← parseRecordHeaders l
  return (⟨recordSize, attributes, timestampDelta.1, toInt32 offsetDelta.1, key.1, key.2,
    value.1, value.2, headers⟩, l)

/-- `parse_one_record_from_buffer`. -/
def parseOneRecordFromBuffer (l : Bytes) : Option (Record × Bytes) :=
  let r := readSigned l
  if r.1 < 0 ∨ (r.2.length : Int) < r.1 then none
  else
    match r.2 with
    | [] => none
    | attributes :: l => doParseOneRecord (toInt32 r.1) attributes l

/-- The iterator over `n` records: when it is done, it has to have read all bytes. -/
def parseRecords : Nat → Bytes → Option (List Record)
  | 0, _ => some []
  | n + 1, l => do
    let (r, l) ← parseOneRecordFromBuffer l
    if n = 0 ∧ l ≠ [] then none
    else
      let rs ← parseRecords n l
      return r :: rs

/-! ## Well-formed records -/

/-- The size of a key or a value is that of its bytes. -/
structure Sized (size : Int) (data : Bytes) : Prop where
  fits : FitsInt32 size
  length : data.length = size.toNat

structure RecordHeader.Wf (h : RecordHeader) : Prop where
  key : Sized h.keySize h.key
  value : Sized h.valueSize h.value

structure Record.Wf (r : Record) : Prop where
  sizeBytes : r.sizeBytes = r.body.length
  sizeBytes_fits : FitsInt32 r.sizeBytes
  timestampDelta : Fits r.timestampDelta
  offsetDelta : FitsInt32 r.offsetDelta
  key : Sized r.keySize r.key
  value : Sized r.valueSize r.value
  headers : ∀ h ∈ r.headers, h.Wf

theorem FitsInt32.fits {v : Int} (hv : FitsInt32 v) : Fits v := by
  obtain ⟨hlow, hhigh⟩ := hv
  exact ⟨by omega, by omega⟩

theorem FitsInt32.toInt32_eq {v : Int} (hv : FitsInt32 v) : toInt32 v = v := by
  obtain ⟨hlow, hhigh⟩ := hv
  rw [toInt32, Int.bmod_eq_of_le (by omega) (by omega)]

theorem Sized.appendSized_eq {size : Int} {data : Bytes} (h : Sized size data) :
    appendSized size data = writeSigned size ++ data := by
  rw [appendSized]
  by_cases hsize : 0 < size
  · rw [if_pos hsize]
  · have hdata : data = [] := by
      rw [← length_eq_zero_iff, h.length]
      omega
    rw [if_neg hsize, hdata]

theorem readSized_append {size : Int} {data : Bytes} {limit : Option Int} (h : Sized size data)
    (hlimit : ∀ n ∈ limit, size ≤ n) (l : Bytes) :
    readSized limit (appendSized size data ++ l) = some ((size, data), l) := by
  have hread : readSigned (writeSigned size ++ (data ++ l)) = (size, data ++ l) :=
    readSigned_writeSigned h.fits.fits _
  have hlength : (data ++ l).length = size.toNat + l.length := by
    rw [length_append, h.length]
  rw [h.appendSized_eq, append_assoc, readSized, hread]
  simp only [h.fits.toInt32_eq]
  by_cases hsize : 0 < size
  · have hrange : ¬ ((∃ n ∈ limit, n < size) ∨ ((data ++ l).length : Int) < size) := by
      rintro (⟨n, hn, hlt⟩ | hlt)
      · exact absurd (hlimit n hn) (not_le.2 hlt)
      · rw [hlength] at hlt
        omega
    rw [if_pos hsize, if_neg hrange, ← h.length, take_left, drop_left]
  · have hdata : data = [] := by
      rw [← length_eq_zero_iff, h.length]
      omega
    rw [if_neg hsize, hdata, nil_append]

theorem writeSigned_length_pos (v : Int) : 0 < (writeSigned v).length := by
  rw [writeSigned, serialize, serializeBytes]
  split
  · exact Nat.one_pos
  · exact Nat.succ_pos _

theorem length_le_flatMap_append (hs : List RecordHeader) :
    hs.length ≤ (hs.flatMap RecordHeader.append).length := by
  induction hs with
  | nil => exact Nat.le_refl 0
  | cons h hs ih =>
    have hpos := writeSigned_length_pos h.keySize
    simp only [flatMap_cons, length_append, length_cons, RecordHeader.append, appendSized]
    omega

theorem parseHeaders_flatMap {hs : List RecordHeader} (h : ∀ x ∈ hs, x.Wf) (l : Bytes) :
    parseHeaders hs.length (hs.flatMap RecordHeader.append ++ l) = some (hs, l) := by
  induction hs with
  | nil => rfl
  | cons x hs ih =>
    rw [forall_mem_cons] at h
    rw [flatMap_cons, RecordHeader.append, append_assoc, append_assoc,
      length_cons, parseHeaders, readSized_append h.1.key (fun n hn => absurd hn (not_mem_none n))]
    simp only [bind_eq_bind, bind_some]
    rw [readSized_append h.1.value (fun n hn => absurd hn (not_mem_none n))]
    simp only [bind_some]
    rw [ih h.2]
    rfl

theorem parseRecordHeaders_append {hs : List RecordHeader} (h : ∀ x ∈ hs, x.Wf)
    (hfits : Fits hs.length) (l : Bytes) :
    parseRecordHeaders (writeSigned hs.length ++ (hs.flatMap RecordHeader.append ++ l)) =
      some (hs, l) := by
  have hlength := length_le_flatMap_append hs
  have hrange : ¬ ((hs.length : Int) < 0 ∨
      ((hs.flatMap RecordHeader.append ++ l).length : Int) < hs.length) := by
    rw [length_append]
    omega
  rw [parseRecordHeaders, readSigned_writeSigned hfits]
  simp only [if_neg hrange, Int.toNat_natCast]
  exact parseHeaders_flatMap h l

namespace Record

/-- The data of a record is part of its body. -/
theorem lengths_le_body (r : Record) :
    r.headers.length ≤ r.body.length ∧ (0 < r.keySize → r.key.length ≤ r.body.length) ∧
      (0 < r.valueSize → r.value.length ≤ r.body.length) := by
  have hheaders := length_le_flatMap_append r.headers
  have hbody : r.body.length = 1 + (writeSigned r.timestampDelta).length +
      (writeSigned r.offsetDelta).length + (appendSized r.keySize r.key).length +
      (appendSized r.valueSize r.value).length + (writeSigned r.headers.length).length +
      (r.headers.flatMap RecordHeader.append).length := by
    simp only [body, length_cons, length_append]
    omega
  have hsized : ∀ (size : Int) (data : Bytes), 0 < size →
      data.length ≤ (appendSized size data).length := by
    intro size data hsize
    rw [appendSized, if_pos hsize, length_append]
    exact Nat.le_add_left _ _
  refine ⟨by omega, fun hkey => ?_, fun hvalue => ?_⟩
  · have := hsized r.keySize r.key hkey
    omega
  · have := hsized r.valueSize r.value hvalue
    omega

variable {r : Record}

theorem Wf.keySize_le (h : r.Wf) : r.keySize ≤ r.sizeBytes := by
  rw [h.sizeBytes]
  rcases lt_or_ge 0 r.keySize with hsize | hsize
  · have hle := r.lengths_le_body.2.1 hsize
    rw [h.key.length] at hle
    omega
  · omega

theorem Wf.valueSize_le (h : r.Wf) : r.valueSize ≤ r.sizeBytes := by
  rw [h.sizeBytes]
  rcases lt_or_ge 0 r.valueSize with hsize | hsize
  · have hle := r.lengths_le_body.2.2 hsize
    rw [h.value.length] at hle
    omega
  · omega

theorem Wf.headers_fits (h : r.Wf) : Fits r.headers.length := by
  have hle := r.lengths_le_body.1
  have hfits := h.sizeBytes_fits.2
  rw [h.sizeBytes] at hfits
  exact ⟨by omega, by omega⟩

theorem doParseOneRecord_body (h : r.Wf) (l : Bytes) :
    doParseOneRecord r.sizeBytes r.attributes (r.body.tail ++ l) = some (r, l) := by
  have hkey : ∀ n ∈ some r.sizeBytes, r.keySize ≤ n := by
    rintro n ⟨⟩
    exact h.keySize_le
  have hvalue : ∀ n ∈ some r.sizeBytes, r.valueSize ≤ n := by
    rintro n ⟨⟩
    exact h.valueSize_le
  rw [body, tail_cons, doParseOneRecord]
  simp only [append_assoc, readSigned_writeSigned h.timestampDelta,
    readSigned_writeSigned h.offsetDelta.fits, readSized_append h.key hkey,
    readSized_append h.value hvalue, parseRecordHeaders_append h.headers h.headers_fits,
    h.offsetDelta.toInt32_eq, bind_eq_bind, bind_some, Option.pure_def]

end Record

/-- Parsing a record that was written gives it back. -/
theorem parseOneRecordFromBuffer_append {r : Record} (h : r.Wf) (l : Bytes) :
    parseOneRecordFromBuffer (r.appendRecordToBuffer ++ l) = some (r, l) := by
  have hrange : ¬ (r.sizeBytes < 0 ∨ ((r.body ++ l).length : Int) < r.sizeBytes) := by
    rw [h.sizeBytes, length_append]
    omega
  rw [Record.appendRecordToBuffer, append_assoc, parseOneRecordFromBuffer,
    readSigned_writeSigned h.sizeBytes_fits.fits]
  simp only [if_neg hrange, h.sizeBytes_fits.toInt32_eq]
  exact Record.doParseOneRecord_body h l

/-- Parsing the records of a batch gives them back. -/
theorem parseRecords_flatMap {rs : List Record} (h : ∀ r ∈ rs, r.Wf) :
    parseRecords rs.length (rs.flatMap Record.appendRecordToBuffer) = some rs := by
  induction rs with
  | nil => rfl
  | cons r rs ih =>
    rw [forall_mem_cons] at h
    have hrest : ¬ (rs.length = 0 ∧ rs.flatMap Record.appendRecordToBuffer ≠ []) := by
      rintro ⟨hlength, hne⟩
      rw [length_eq_zero_iff] at hlength
      exact hne (hlength ▸ rfl)
    rw [flatMap_cons, length_cons, parseRecords, parseOneRecordFromBuffer_append h.1]
    simp only [bind_eq_bind, bind_some, if_neg hrest, ih h.2, Option.pure_def]

end Redpanda.Model
