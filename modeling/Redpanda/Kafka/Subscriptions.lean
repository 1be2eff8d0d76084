import Redpanda.Model.Record

/-!
# The topics a consumer subscribes to

`decode_consumer_subscriptions` reads topic names until it has as many different ones as were
declared. So a name that is repeated makes it read on behind the list, in the user data.

* `decodes_iff`: the topics are those of the list and nothing is read behind it if no name is
  repeated and all are UTF-8, and only then.
* `exists_read_behind`: the user data may become topics.
-/

namespace Redpanda.Kafka

open Model List

inductive DecodeError
  | outOfRange
  | invalidUtf8
  deriving DecidableEq

/-- The number with some bytes, the highest one first. -/
def ofBytes (l : Bytes) : Nat :=
  l.foldl (fun n b => 256 * n + b.toNat) 0

def toBytes : Nat → Nat → Bytes
  | 0, _ => []
  | size + 1, n => toBytes size (n / 256) ++ [.ofNat n]

/-- `read_int16` and `read_int32`: two's complement. -/
def readInt (size : Nat) (data : Bytes) : Except DecodeError (Int × Bytes) :=
  if data.length < size then .error .outOfRange
  else .ok (Int.bmod (ofBytes (data.take size)) (256 ^ size), data.drop size)

/-- The version, which is ignored, and the number of topics. -/
def readCount (data : Bytes) : Except DecodeError (Nat × Bytes) :=
  (readInt 2 data).bind fun x => (readInt 4 x.2).bind fun y =>
    if y.1 < 0 ∨ y.2.length < y.1.toNat then .error .outOfRange else .ok (y.1.toNat, y.2)

section

variable (utf8 : Bytes → Bool) (data : Bytes)

/-- A name with its length. `utf8` is `is_valid_utf8`. -/
def readName : Except DecodeError (Bytes × Bytes) :=
  (readInt 2 data).bind fun x =>
    if x.1 < 0 ∨ 32 * 1024 < x.1 ∨ x.2.length < x.1.toNat then .error .outOfRange
    else if utf8 (x.2.take x.1.toNat) then .ok (x.2.splitAt x.1.toNat)
    else .error .invalidUtf8

/-- The loop, with a bound for the number of names. -/
def readTopics (count : Nat) : Nat → Finset Bytes → Bytes → Except DecodeError (Finset Bytes × Bytes)
  | 0, topics, data => if topics.card = count then .ok (topics, data) else .error .outOfRange
  | fuel + 1, topics, data =>
    if topics.card = count then .ok (topics, data)
    else (readName utf8 data).bind fun x => readTopics count fuel (insert x.1 topics) x.2

/-- The topics, and what is not read. There cannot be more names than bytes. -/
def decodeConsumerSubscriptions : Except DecodeError (Finset Bytes × Bytes) :=
  (readCount data).bind fun x => readTopics utf8 x.1 (x.1 + x.2.length) ∅ x.2

/-- A number of names, one after the other. -/
def readNames : Nat → Bytes → Except DecodeError (List Bytes × Bytes)
  | 0, data => .ok ([], data)
  | n + 1, data =>
    (readName utf8 data).bind fun x => (readNames n x.2).map fun y => (x.1 :: y.1, y.2)

/-- The list of topics that is declared, and what is behind it. -/
def declared : Except DecodeError (List Bytes × Bytes) :=
  (readCount data).bind fun x => readNames utf8 x.1 x.2

/-- The decoder gives the set of the names that are declared and leaves what is behind them, and
    fails only if it is out of range. -/
def Decodes : Prop :=
  decodeConsumerSubscriptions utf8 data = (declared utf8 data).map (fun x => (x.1.toFinset, x.2)) ∧
    decodeConsumerSubscriptions utf8 data ≠ .error .invalidUtf8

/-- The list is too short, or no name is repeated, and all names that can be read are UTF-8. -/
def Readable : Prop :=
  (∀ x, declared utf8 data = .ok x → x.1.Nodup) ∧ declared utf8 data ≠ .error .invalidUtf8

end

def encodeName (name : Bytes) : Bytes :=
  toBytes 2 name.length ++ name

/-- A subscription of version 0. -/
def encodeSubscription (names : List Bytes) (userData : Bytes) : Bytes :=
  toBytes 2 0 ++ (toBytes 4 names.length ++ (names.flatMap encodeName ++ userData))

variable {utf8 : Bytes → Bool} {size n count fuel : Nat} {data : Bytes} {names : List Bytes}
  {topics : Finset Bytes}

theorem length_toBytes : (toBytes size n).length = size := by
  induction size generalizing n with
  | zero => rfl
  | succ size ih => rw [toBytes, length_append, ih, length_singleton]

theorem ofBytes_toBytes : ofBytes (toBytes size n) = n % 256 ^ size := by
  induction size generalizing n with
  | zero => rw [pow_zero, Nat.mod_one]; rfl
  | succ size ih =>
    have hlast : (UInt8.ofNat n).toNat = n % 256 := UInt8.toNat_ofNat'
    rw [ofBytes, toBytes, foldl_concat, ← ofBytes, ih, hlast, pow_succ', Nat.mod_mul, add_comm]

theorem readInt_toBytes (h : 2 * n < 256 ^ size) :
    readInt size (toBytes size n ++ data) = .ok (n, data) := by
  have hsize : (toBytes size n).length = size := length_toBytes
  rw [readInt, if_neg (by simp [hsize]), take_left' hsize, drop_left' hsize, ofBytes_toBytes,
    Nat.mod_eq_of_lt (by omega), Int.bmod_eq_of_le (by omega) (by omega)]

/-- The loop reads as many names as are declared, if none is repeated. -/
theorem readTopics_eq (hfuel : n ≤ fuel) (hcount : topics.card + n ≤ count)
    (hnew : ∀ x, readNames utf8 n data = .ok x →
      x.1.Nodup ∧ Disjoint topics x.1.toFinset ∧ topics.card + n = count) :
    readTopics utf8 count fuel topics data =
      (readNames utf8 n data).map fun x => (topics ∪ x.1.toFinset, x.2) := by
  induction n generalizing fuel topics data with
  | zero =>
    obtain ⟨-, -, hcard⟩ := hnew _ rfl
    cases fuel <;> simp [readTopics, ← hcard, readNames, Except.map]
  | succ n ih =>
    obtain ⟨fuel, rfl⟩ := Nat.exists_eq_add_of_lt hfuel
    rw [readTopics, if_neg (by omega), readNames] at *
    generalize readName utf8 data = result at *
    rcases result with e | x
    · rfl
    · have hcard := Finset.card_insert_le x.1 topics
      refine (ih (by omega) (by omega) fun y hy => ?_).trans ?_
      · obtain ⟨hnodup, hdisjoint, hcount⟩ := hnew (x.1 :: y.1, y.2) (by
          simp [Except.bind, hy, Except.map])
        rw [nodup_cons, ← mem_toFinset] at hnodup
        rw [toFinset_cons, Finset.disjoint_insert_right] at hdisjoint
        refine ⟨hnodup.2, Finset.disjoint_insert_left.2 ⟨hnodup.1, hdisjoint.2⟩, ?_⟩
        rw [Finset.card_insert_of_notMem hdisjoint.1]
        omega
      · rcases hy : readNames utf8 n x.2 with e | y <;> simp [Except.bind, Except.map, hy]

/-- The loop ends when it has the declared number of different names. -/
theorem card_of_readTopics {x : Finset Bytes × Bytes}
    (h : readTopics utf8 count fuel topics data = .ok x) : x.1.card = count := by
  induction fuel generalizing topics data with
  | zero =>
    rw [readTopics] at h
    split_ifs at h with hcard
    obtain rfl := Except.ok.inj h
    exact hcard
  | succ fuel ih =>
    rw [readTopics] at h
    split_ifs at h with hcard
    · obtain rfl := Except.ok.inj h
      exact hcard
    · rcases hname : readName utf8 data with e | y <;> rw [hname] at h
      · cases h
      · exact ih h

/-- It has then read at least as many names as were missing. -/
theorem exists_readNames_of_readTopics {x : Finset Bytes × Bytes}
    (h : readTopics utf8 count fuel topics data = .ok x) (hn : topics.card + n ≤ count) :
    ∃ y, readNames utf8 n data = .ok y := by
  induction n generalizing fuel topics data with
  | zero => exact ⟨_, rfl⟩
  | succ n ih =>
    cases fuel with
    | zero => rw [readTopics, if_neg (by omega)] at h; cases h
    | succ fuel =>
      rw [readTopics, if_neg (by omega)] at h
      rcases hname : readName utf8 data with e | y <;> rw [hname] at h
      · cases h
      · have hcard := Finset.card_insert_le y.1 topics
        obtain ⟨z, hz⟩ := ih h (by omega)
        exact ⟨(y.1 :: z.1, z.2), by simp [readNames, hname, Except.bind, hz, Except.map]⟩

theorem length_of_readNames {x : List Bytes × Bytes} (h : readNames utf8 n data = .ok x) :
    x.1.length = n := by
  induction n generalizing data x with
  | zero =>
    obtain rfl := Except.ok.inj h
    rfl
  | succ n ih =>
    rw [readNames] at h
    rcases hname : readName utf8 data with e | y <;> rw [hname] at h
    · cases h
    · change (readNames utf8 n y.2).map _ = _ at h
      rcases hz : readNames utf8 n y.2 with e | z <;> rw [hz] at h
      · cases h
      · obtain rfl := Except.ok.inj h
        rw [length_cons, ih hz]

theorem readCount_encodeSubscription (hlen : names.length < 2 ^ 31) :
    readCount (encodeSubscription names data) =
      .ok (names.length, names.flatMap encodeName ++ data) := by
  have hle : names.length ≤ (names.flatMap encodeName).length := by
    clear hlen
    induction names with
    | nil => rfl
    | cons name names ih =>
      rw [flatMap_cons, length_append, encodeName, length_append, length_toBytes, length_cons]
      omega
  rw [readCount, encodeSubscription, readInt_toBytes (by decide), Except.bind,
    readInt_toBytes (by omega), Except.bind, if_neg (by rw [length_append]; omega)]
  rfl

section

variable (h : ∀ name ∈ names, name.length < 2 ^ 15)

include h

theorem readNames_encodeName :
    readNames utf8 names.length (names.flatMap encodeName ++ data) =
      if ∀ name ∈ names, utf8 name then .ok (names, data) else .error .invalidUtf8 := by
  induction names with
  | nil => rfl
  | cons name names ih =>
    obtain ⟨hlen, h⟩ := forall_mem_cons.1 h
    rw [length_cons, readNames, readName, flatMap_cons, encodeName, append_assoc, append_assoc,
      readInt_toBytes (by omega), Except.bind, if_neg (by simp; omega)]
    by_cases hutf8 : utf8 name
    · simp only [take_left, splitAt_eq, drop_left, hutf8, if_true, Int.toNat_natCast, Except.bind,
        ih h, forall_mem_cons, true_and]
      split_ifs <;> rfl
    · simp [hutf8, Except.bind]

theorem declared_encodeSubscription (hlen : names.length < 2 ^ 31) :
    declared utf8 (encodeSubscription names data) =
      if ∀ name ∈ names, utf8 name then .ok (names, data) else .error .invalidUtf8 := by
  rw [declared, readCount_encodeSubscription hlen]
  exact readNames_encodeName h

end

/-- The topics that are given back are those that were declared only if none was repeated. -/
theorem nodup_of_decodeConsumerSubscriptions {x : List Bytes × Bytes} {rest : Bytes}
    (hx : declared utf8 data = .ok x)
    (h : decodeConsumerSubscriptions utf8 data = .ok (x.1.toFinset, rest)) : x.1.Nodup := by
  rw [decodeConsumerSubscriptions] at h
  rw [declared] at hx
  rcases hcount : readCount data with e | y <;> rw [hcount] at h hx
  · cases hx
  · have hcard : x.1.toFinset.card = y.1 := card_of_readTopics h
    rw [← length_of_readNames hx] at hcard
    exact Multiset.toFinset_card_eq_card_iff_nodup.1 hcard

theorem decodes_of_readable (h : Readable utf8 data) : Decodes utf8 data := by
  have heq : decodeConsumerSubscriptions utf8 data =
      (declared utf8 data).map fun x => (x.1.toFinset, x.2) := by
    have hnodup := h.1
    rw [decodeConsumerSubscriptions, declared] at *
    generalize readCount data = result at *
    rcases result with e | x
    · rfl
    · refine (readTopics_eq (n := x.1) (by omega) (by simp) fun y hy => ?_).trans ?_
      · simpa using hnodup y hy
      · simp [Except.bind]
  refine ⟨heq, ?_⟩
  rcases hdeclared : declared utf8 data with e | x <;> rw [heq, hdeclared]
  · exact fun herr => h.2 (hdeclared.trans (congrArg _ (Except.error.inj herr)))
  · exact fun herr => by cases herr

theorem decodes_iff_readable : Decodes utf8 data ↔ Readable utf8 data := by
  refine ⟨fun ⟨heq, hne⟩ => ⟨fun x hx => ?_, fun herr => hne ?_⟩, decodes_of_readable⟩
  · rw [hx] at heq
    exact nodup_of_decodeConsumerSubscriptions hx heq
  · rw [heq, herr]
    rfl

/-- The topics of a list are given back exactly if none is repeated and all are UTF-8. And
    nothing behind a list is read, or it is too short and out of range, exactly for those. -/
theorem decodes_iff (utf8 : Bytes → Bool) :
    (∀ names userData, (∀ name ∈ names, name.length < 2 ^ 15) → names.length < 2 ^ 31 →
      ((∃ rest, decodeConsumerSubscriptions utf8 (encodeSubscription names userData) =
        .ok (names.toFinset, rest)) ↔ names.Nodup ∧ ∀ name ∈ names, utf8 name)) ∧
    ∀ data, Decodes utf8 data ↔ Readable utf8 data := by
  refine ⟨fun names userData h hlen => ?_, fun data => decodes_iff_readable⟩
  have hdeclared := @declared_encodeSubscription utf8 userData names h hlen
  constructor
  · rintro ⟨rest, hrest⟩
    have hutf8 : ∀ name ∈ names, utf8 name := by
      have hread := hrest
      rw [decodeConsumerSubscriptions, readCount_encodeSubscription hlen] at hread
      obtain ⟨y, hy⟩ := exists_readNames_of_readTopics (n := names.length) hread (by simp)
      rw [readNames_encodeName h] at hy
      by_contra hall
      rw [if_neg hall] at hy
      cases hy
    rw [if_pos hutf8] at hdeclared
    exact ⟨nodup_of_decodeConsumerSubscriptions hdeclared hrest, hutf8⟩
  · rintro ⟨hnodup, hutf8⟩
    rw [if_pos hutf8] at hdeclared
    have hreadable : Readable utf8 (encodeSubscription names userData) :=
      ⟨by simpa [hdeclared] using hnodup, by simp [hdeclared]⟩
    obtain ⟨heq, -⟩ := decodes_of_readable hreadable
    rw [hdeclared] at heq
    exact ⟨userData, heq⟩

/-- Two topics, with user data that is not read. -/
theorem decodes_two :
    (∃ rest, decodeConsumerSubscriptions (fun _ => true) (encodeSubscription [[116], [117]] [1, 2]) =
      .ok ({[116], [117]}, rest)) ∧
    Decodes (fun _ => true) (encodeSubscription [[116], [117]] [1, 2]) :=
  ⟨((decodes_iff fun _ => true).1 [[116], [117]] [1, 2] (by decide) (by decide)).2 (by decide),
    ((decodes_iff fun _ => true).2 _).2 (by
      rw [Readable, declared_encodeSubscription (by decide) (by decide), if_pos (by decide)]
      simp)⟩

/-- The topic `t` is listed twice, and the user data becomes the topic `u`. -/
theorem exists_read_behind :
    (decodeConsumerSubscriptions (fun _ => true)
      (encodeSubscription [[116], [116]] [0, 1, 117])).toOption = some ({[116], [117]}, []) := by
  decide

end Redpanda.Kafka
