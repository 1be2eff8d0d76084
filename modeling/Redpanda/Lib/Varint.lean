import Mathlib

/-!
# Variable-length integers

A natural number below `2 ^ 64` is written as at most ten bytes of seven bits each, lowest first,
where every byte but the last has its high bit set. A signed number is mapped to a natural one
first, which interleaves the negative and the other numbers (zigzag).

* `Varint.deserialize_serialize`: reading what was written gives the number back, and leaves
  the bytes after it.
* `Varint.readSigned_writeSigned`: the same for signed numbers of 64 bits.
-/

namespace Redpanda.Lib.Varint

/-- The bytes of `v`, of which there are at most `n`. -/
def serializeBytes : Nat → Nat → List UInt8
  | 0, _ => []
  | n + 1, v =>
    if v < 128 then [UInt8.ofNat v] else UInt8.ofNat (v % 128 + 128) :: serializeBytes n (v / 128)

/-- The number at the start of the bytes, of which at most `n` are read, and the bytes that
    follow. A number that is cut short counts as far as it goes. -/
def deserializeBytes : Nat → List UInt8 → Nat × List UInt8
  | 0, l => (0, l)
  | _ + 1, [] => (0, [])
  | n + 1, b :: l =>
    if b.toNat < 128 then (b.toNat, l)
    else
      let r := deserializeBytes n l
      (b.toNat - 128 + 128 * r.1, r.2)

/-- At most ten bytes are needed for 64 bits. -/
def serialize (v : Nat) : List UInt8 :=
  serializeBytes 10 v

/-- The bits above the 64th are lost. -/
def deserialize (l : List UInt8) : Nat × List UInt8 :=
  let r := deserializeBytes 10 l
  (r.1 % 2 ^ 64, r.2)

variable (v : Int)

/-- Numbers with a small absolute value get a small code. -/
def encodeZigzag : Nat :=
  if 0 ≤ v then (2 * v).toNat else (-2 * v - 1).toNat

def decodeZigzag (n : Nat) : Int :=
  if n % 2 = 0 then n / 2 else -(n / 2) - 1

def writeSigned : List UInt8 :=
  serialize (encodeZigzag v)

def readSigned (l : List UInt8) : Int × List UInt8 :=
  let r := deserialize l
  (decodeZigzag r.1, r.2)

/-- A signed number of 64 bits. -/
def Fits : Prop :=
  -2 ^ 63 ≤ v ∧ v < 2 ^ 63
  deriving Decidable

/-- What is written is read again, and the bytes that follow are left alone. -/
theorem deserializeBytes_serializeBytes {n v : Nat} (hn : 0 < n) (hv : v < 128 ^ n)
    (l : List UInt8) : deserializeBytes n (serializeBytes n v ++ l) = (v, l) := by
  induction n generalizing v with
  | zero => exact absurd hn (Nat.lt_irrefl 0)
  | succ n ih =>
    rw [serializeBytes]
    by_cases hlt : v < 128
    · have hbyte : (UInt8.ofNat v).toNat = v := by
        rw [UInt8.toNat_ofNat']
        omega
      rw [if_pos hlt, List.cons_append, List.nil_append, deserializeBytes, hbyte, if_pos hlt]
    · have hbyte : (UInt8.ofNat (v % 128 + 128)).toNat = v % 128 + 128 := by
        rw [UInt8.toNat_ofNat']
        omega
      have hdiv : v / 128 < 128 ^ n := by
        rw [Nat.div_lt_iff_lt_mul (by decide), ← Nat.pow_succ]
        exact hv
      have hpos : 0 < n := by
        rcases Nat.eq_zero_or_pos n with rfl | hn
        · exact absurd hv hlt
        · exact hn
      rw [if_neg hlt, List.cons_append, deserializeBytes, hbyte, if_neg (by omega),
        ih hpos hdiv]
      refine Prod.ext ?_ rfl
      change v % 128 + 128 - 128 + 128 * (v / 128) = v
      omega

theorem deserialize_serialize {v : Nat} (hv : v < 2 ^ 64) (l : List UInt8) :
    deserialize (serialize v ++ l) = (v, l) := by
  rw [deserialize, serialize,
    deserializeBytes_serializeBytes (by decide) (hv.trans (by decide)) l]
  exact Prod.ext (Nat.mod_eq_of_lt hv) rfl

/-- The code of a signed number of 64 bits has 64 bits. -/
theorem encodeZigzag_lt {v : Int} (hv : Fits v) : encodeZigzag v < 2 ^ 64 := by
  obtain ⟨hlow, hhigh⟩ := hv
  rw [encodeZigzag]
  split <;> omega

theorem decodeZigzag_encodeZigzag : decodeZigzag (encodeZigzag v) = v := by
  rw [encodeZigzag, decodeZigzag]
  by_cases hv : 0 ≤ v
  · rw [if_pos hv, if_pos (by omega)]
    omega
  · rw [if_neg hv, if_neg (by omega)]
    omega

theorem readSigned_writeSigned {v : Int} (hv : Fits v) (l : List UInt8) :
    readSigned (writeSigned v ++ l) = (v, l) := by
  rw [readSigned, writeSigned, deserialize_serialize (encodeZigzag_lt hv)]
  exact Prod.ext (decodeZigzag_encodeZigzag v) rfl

end Redpanda.Lib.Varint
