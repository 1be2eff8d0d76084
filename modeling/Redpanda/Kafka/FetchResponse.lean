import Redpanda.Kafka.Produce

/-!
# The byte limit of a fetch response

`fill_fetch_responses` puts the data that was read for a fetch into its response. Data is admitted
if the bytes that are left cover it, and if there is none yet (`OpContext.Admits`). A later read of
the same fetch replaces what its partition has in the response (`OpContext.set`): the size of the
old data is credited, that of the new data is debited as far as something is left.

* `respectsLimit_of_fills`: the response respects its limit if each result comes while the bytes
  that are left cover the data it replaces, or while there is no other data (`OpContext.Covers`).
* `exists_response_over_limit`: the test for admission subtracts the size of the replaced data, and
  wraps around if less is left. And more is credited than was debited if the first data exceeds the
  limit.
* `foldl_fillTracked_iff`: the tracker of empty fetches counts those without data if and only if no
  reader comes back without a byte. A read at the high watermark does (`exists_empty_not_counted`).

Of a result only what decides about the data is modelled, the session is left out.
-/

namespace Redpanda.Kafka

open Finset Function Lib

/-- The error of a `read_result` and the size of its data, if it has data. -/
@[ext]
structure ReadResult where
  error : ErrorCode
  data : Option Nat
  deriving DecidableEq

def ReadResult.dataSizeBytes (res : ReadResult) : Nat := res.data.getD 0

/-- The budgets of a fetch operation, and the size of the records of each placeholder `π` of its
    response. -/
structure OpContext (π : Type*) where
  bytesLeft : Nat
  responseSize : Nat
  records : π → Nat

/-- The difference of two values of type `size_t`, which wraps around below zero. -/
def sizeSub (a b : Nat) : Nat :=
  if b ≤ a then a - b else a + 2 ^ 64 - b

namespace OpContext

variable {π : Type*} {limit n : Nat} {octx : OpContext π} {p : π} {res : ReadResult}

/-- A placeholder starts with empty records. -/
def init (limit : Nat) : OpContext π where
  bytesLeft := limit
  responseSize := 0
  records _ := 0

/-- Whether the data of a result goes into the response. The first data does even if it exceeds the
    limit. -/
def Admits (octx : OpContext π) (res : ReadResult) (p : π) : Prop :=
  res.data.isSome ∧ (res.dataSizeBytes ≤ sizeSub octx.bytesLeft (octx.records p) ∨
    octx.responseSize = 0)
  deriving Decidable

/-- The bytes that are left cover what the placeholder has in the response, or this is all that
    the response has and within the limit. -/
def Covers (limit : Nat) (octx : OpContext π) (p : π) : Prop :=
  octx.records p ≤ octx.bytesLeft ∨
    octx.responseSize = octx.records p ∧ octx.responseSize ≤ limit

/-- The budgets are those of what the placeholders hold. Only the data of a single one exceeds the
    limit. -/
structure Budgeted [Fintype π] (limit : Nat) (octx : OpContext π) : Prop where
  responseSize_eq : octx.responseSize = ∑ p, octx.records p
  bytesLeft_add : octx.responseSize ≤ limit → octx.bytesLeft + octx.responseSize = limit
  bytesLeft_eq : limit < octx.responseSize → octx.bytesLeft = 0
  single : limit < octx.responseSize → ∃ p, ∀ q ≠ p, octx.records q = 0

theorem budgeted_init [Fintype π] : (init limit : OpContext π).Budgeted limit where
  responseSize_eq := by simp [init]
  bytesLeft_add _ := rfl
  bytesLeft_eq h := absurd h (Nat.not_lt_zero _)
  single h := absurd h (Nat.not_lt_zero _)

variable [DecidableEq π]

/-- `response_placeholder::set`, for records of `sz` bytes. -/
def set (octx : OpContext π) (p : π) (sz : Nat) : OpContext π where
  bytesLeft := octx.bytesLeft + octx.records p - min (octx.bytesLeft + octx.records p) sz
  responseSize := octx.responseSize - octx.records p + sz
  records := update octx.records p sz

/-- One iteration of `fill_fetch_responses`. -/
def fillFetchResponse (octx : OpContext π) (res : ReadResult) (p : π) : OpContext π :=
  if res.error ≠ .none then octx.set p 0
  else if octx.Admits res p then octx.set p res.dataSizeBytes
  else octx.set p 0

/-- Only the common subset of the results and the placeholders is processed. -/
def fillFetchResponses (octx : OpContext π) (results : List ReadResult) (responses : List π) :
    OpContext π :=
  (results.zip responses).foldl (fun octx r => octx.fillFetchResponse r.1 r.2) octx

/-- Each result comes while its placeholder is covered. -/
def CoversEach (limit : Nat) : OpContext π → List (ReadResult × π) → Prop
  | _, [] => True
  | octx, (res, p) :: l => octx.Covers limit p ∧ (octx.fillFetchResponse res p).CoversEach limit l

/-- The results of a read of some partitions are put into the response. -/
def Fills (limit : Nat) (octx : OpContext π) (read : List ReadResult × List π)
    (octx' : OpContext π) : Prop :=
  octx.CoversEach limit (read.1.zip read.2) ∧ octx' = octx.fillFetchResponses read.1 read.2

variable [Fintype π]

section

variable (h : octx.Budgeted limit)

include h

theorem Budgeted.records_add (p : π) :
    octx.records p + ∑ q ∈ univ \ {p}, octx.records q = octx.responseSize := by
  rw [h.responseSize_eq, sum_eq_add_sum_sdiff_singleton_of_mem (mem_univ p)]

/-- Replacing covered data keeps the budgets if the new data fits next to the other data, if there
    is no other data or if there is no new data. -/
theorem Budgeted.set (hp : octx.Covers limit p)
    (hn : n = 0 ∨ octx.responseSize - octx.records p + n ≤ limit ∨
      octx.responseSize = octx.records p) : (octx.set p n).Budgeted limit := by
  have hsum := h.records_add p
  have hleft := h.bytesLeft_add
  have hzero := h.bytesLeft_eq
  unfold Covers at hp
  constructor <;> dsimp only [OpContext.set]
  case responseSize_eq =>
    rw [sum_update_of_mem (mem_univ p)]
    omega
  case bytesLeft_add => omega
  case bytesLeft_eq => omega
  case single =>
    intro hover
    obtain hle | hlt := Nat.lt_or_ge limit octx.responseSize
    · -- nothing is left, so that neither the old data nor the new data has a size
      obtain ⟨r, hr⟩ := h.single hle
      obtain ⟨hp, hn⟩ : octx.records p = 0 ∧ n = 0 := by omega
      refine ⟨r, fun q hq => ?_⟩
      rw [hn, ← hp, update_eq_self, hr q hq, hp]
    · have hrest : ∑ q ∈ univ \ {p}, octx.records q = 0 := by omega
      refine ⟨p, fun q hq => ?_⟩
      rw [update_of_ne hq]
      exact sum_eq_zero_iff.1 hrest q (by simpa using hq)

theorem Budgeted.fillFetchResponse (hp : octx.Covers limit p) :
    (octx.fillFetchResponse res p).Budgeted limit := by
  unfold OpContext.fillFetchResponse
  split
  · exact h.set hp (.inl rfl)
  split
  case isTrue hres =>
    have hsum := h.records_add p
    have hleft := h.bytesLeft_add
    have hzero := h.bytesLeft_eq
    refine h.set hp ?_
    obtain ⟨-, hfits | hfirst⟩ := hres
    · unfold Covers at hp
      unfold sizeSub at hfits
      split at hfits <;> omega
    · omega
  case isFalse => exact h.set hp (.inl rfl)

theorem Budgeted.fillFetchResponses {results : List ReadResult} {responses : List π}
    (hp : octx.CoversEach limit (results.zip responses)) :
    (octx.fillFetchResponses results responses).Budgeted limit := by
  unfold OpContext.fillFetchResponses
  revert hp
  induction results.zip responses generalizing octx with
  | nil => exact fun _ => h
  | cons r l ih => exact fun hp => ih (h.fillFetchResponse hp.1) hp.2

end

end OpContext

open OpContext

/-- If each result comes while its placeholder is covered, data of two partitions is within the
    limit, and the budgets are those of what the partitions hold. -/
theorem respectsLimit_of_fills {π : Type*} [Fintype π] [DecidableEq π] {limit : Nat}
    {reads : List (List ReadResult × List π)} {octx : OpContext π}
    (h : Run (Fills limit) (init limit) reads octx) :
    (∀ p q, p ≠ q → 0 < octx.records p → 0 < octx.records q → octx.responseSize ≤ limit) ∧
      octx.responseSize = ∑ p, octx.records p ∧
      (octx.responseSize ≤ limit → octx.bytesLeft + octx.responseSize = limit) := by
  have hb : octx.Budgeted limit := by
    refine h.invariant (P := Budgeted limit) (fun hb hstep => ?_) budgeted_init
    rw [hstep.2]
    exact hb.fillFetchResponses hstep.1
  refine ⟨fun p q hpq hp hq => ?_, hb.responseSize_eq, hb.bytesLeft_add⟩
  by_contra hover
  obtain ⟨r, hr⟩ := hb.single (Nat.lt_of_not_le hover)
  obtain rfl : p = r := by_contra fun hpr => hp.ne' (hr p hpr)
  exact hq.ne' (hr q hpq.symm)

/-- Three reads, each for one of two partitions. -/
def fillThree (limit a b c : Nat) : OpContext (Fin 2) :=
  (((init limit).fillFetchResponses [⟨.none, some a⟩] [0]).fillFetchResponses
    [⟨.none, some b⟩] [1]).fillFetchResponses [⟨.none, some c⟩] [0]

theorem respectsLimit_of_fills_three : (fillThree 100 10 40 25).responseSize = 65 ∧
    (fillThree 100 10 40 25).bytesLeft + (fillThree 100 10 40 25).responseSize = 100 := by
  have h : Run (Fills 100) (init 100)
      [([⟨.none, some 10⟩], [0]), ([⟨.none, some 40⟩], [1]), ([⟨.none, some 25⟩], [0])]
      (fillThree 100 10 40 25) := by
    refine .cons ⟨⟨.inl ?_, trivial⟩, rfl⟩ (.cons ⟨⟨.inl ?_, trivial⟩, rfl⟩
      (.cons ⟨⟨.inl ?_, trivial⟩, rfl⟩ (.nil _)))
    all_goals decide
  exact ⟨by decide, (respectsLimit_of_fills h).2.2 (by decide)⟩

/-- With 10 bytes left, 70 bytes replace 30 next to 60 others. And 150 bytes are credited when an
    error replaces data that took the whole limit. -/
theorem exists_response_over_limit :
    (fillThree 100 30 60 70).responseSize = 130 ∧
      (fillThree 100 30 60 70).records 0 = 70 ∧ (fillThree 100 30 60 70).records 1 = 60 ∧
      ((init 100).fillFetchResponses [⟨.none, some 150⟩, ⟨.other 1, none⟩]
        [(0 : Fin 2), 0]).bytesLeft = 150 := by
  decide

/-! ## Empty fetches -/

/-- What `do_read_from_ntp` finds: an error, a preferred replica, the offsets, whether there are
    memory units, and what the reader returns if it is consumed. -/
structure NtpRead where
  error : ErrorCode
  hasPreferredReplica : Bool
  highWatermark : Int
  startOffset : Int
  maxOffset : Int
  skipRead : Bool
  hasUnits : Bool
  consumed : Except KafkaError Nat

def readFromPartition (r : NtpRead) (skipRead : Bool) : ReadResult :=
  if r.highWatermark < r.startOffset ∨ skipRead ∨ r.maxOffset < r.startOffset then ⟨.none, none⟩
  else
    match r.consumed with
    | .ok n => ⟨.none, some n⟩
    -- the log was truncated meanwhile
    | .error e => ⟨e, none⟩

def doReadFromNtp (r : NtpRead) : ReadResult :=
  if r.error ≠ .none then ⟨r.error, none⟩
  else if r.hasPreferredReplica then ⟨.none, none⟩
  else readFromPartition r (r.skipRead || !r.hasUnits)

/-- `release_data` empties the buffer, and leaves the pointer to it. -/
def ReadResult.releaseData (res : ReadResult) : ReadResult :=
  { res with data := res.data.map fun _ => 0 }

/-- No data is either no buffer, or a buffer without a byte. -/
theorem countP_dataSizeBytes {π : Type*} (results : List (ReadResult × π)) :
    results.countP (fun r => r.1.error = .none ∧ r.1.dataSizeBytes = 0) =
      results.countP (fun r => r.1.error = .none ∧ r.1.data = none) +
        results.countP (fun r => r.1.error = .none ∧ r.1.data = some 0) := by
  induction results with
  | nil => rfl
  | cons r results ih =>
    rw [List.countP_cons, List.countP_cons, List.countP_cons, ih]
    rcases r with ⟨⟨ec, _ | _ | n⟩, p⟩
    · simp [ReadResult.dataSizeBytes]
      omega
    · simp [ReadResult.dataSizeBytes]
      omega
    · simp [ReadResult.dataSizeBytes]

structure EmptyFetchTracker where
  emptyCount : Nat
  totalCount : Nat
  deriving DecidableEq

def EmptyFetchTracker.record (t : EmptyFetchTracker) (isEmpty : Bool) : EmptyFetchTracker where
  totalCount := t.totalCount + 1
  emptyCount := t.emptyCount + isEmpty.toNat

variable {π : Type*} [DecidableEq π] (x : OpContext π × EmptyFetchTracker)

/-- One iteration of `fill_fetch_responses`, with the tracker. -/
def fillTracked (r : ReadResult × π) : OpContext π × EmptyFetchTracker :=
  (x.1.fillFetchResponse r.1 r.2,
    if r.1.error ≠ .none then x.2
    else x.2.record !(if x.1.Admits r.1 r.2 then r.1.releaseData else r.1).data.isSome)

theorem snd_fillTracked (r : ReadResult × π) : (fillTracked x r).2 =
    if r.1.error ≠ .none then x.2 else x.2.record r.1.data.isNone := by
  unfold fillTracked ReadResult.releaseData
  split_ifs <;> simp

/-- The tracker counts the results without an error, and those of them that have no buffer. -/
theorem snd_foldl_fillTracked (results : List (ReadResult × π)) :
    (results.foldl fillTracked x).2 =
      { totalCount := x.2.totalCount + results.countP (·.1.error = .none)
        emptyCount := x.2.emptyCount +
          results.countP fun r => r.1.error = .none ∧ r.1.data = none } := by
  induction results generalizing x with
  | nil => rfl
  | cons r results ih =>
    rw [List.foldl_cons, ih, snd_fillTracked, List.countP_cons, List.countP_cons]
    rcases r with ⟨⟨ec, data⟩, p⟩
    by_cases hec : ec = .none
    · rcases data with _ | n
      · simp [hec, EmptyFetchTracker.record]
        omega
      · simp [hec, EmptyFetchTracker.record]
        omega
    · simp [hec]

/-- The tracker counts the results without an error, and those of them without data, if and only if
    no reader that is consumed comes back without a byte. -/
theorem foldl_fillTracked_iff (reads : List (NtpRead × π)) :
    let results := reads.map (Prod.map doReadFromNtp id)
    (results.foldl fillTracked x).2 =
        { totalCount := x.2.totalCount + results.countP (·.1.error = .none)
          emptyCount := x.2.emptyCount +
            results.countP fun r => r.1.error = .none ∧ r.1.dataSizeBytes = 0 } ↔
      ∀ r ∈ reads, doReadFromNtp r.1 ≠ ⟨.none, some 0⟩ := by
  intro results
  have hnone : results.countP (fun r => r.1.error = .none ∧ r.1.data = some 0) = 0 ↔
      ∀ r ∈ reads, doReadFromNtp r.1 ≠ ⟨.none, some 0⟩ := by
    rw [List.countP_eq_zero, List.forall_mem_map]
    simp [ReadResult.ext_iff]
  rw [snd_foldl_fillTracked, countP_dataSizeBytes, ← hnone, EmptyFetchTracker.mk.injEq]
  omega

theorem foldl_fillTracked_two :
    (([(⟨.none, false, 9, 4, 8, false, true, .ok 70⟩, 0), (⟨.none, false, 9, 10, 8, false, true,
      .ok 0⟩, 1)].map (Prod.map doReadFromNtp id)).foldl fillTracked (init 100, ⟨0, 0⟩)).2 =
      ⟨1, 2⟩ :=
  ((foldl_fillTracked_iff _ _).2 (by decide)).trans (by decide)

/-- A read at the high watermark has a buffer without data. It is not counted as empty. -/
theorem exists_empty_not_counted :
    let res := doReadFromNtp ⟨.none, false, 9, 9, 100, false, true, .ok 0⟩
    res.error = .none ∧ res.dataSizeBytes = 0 ∧
      (fillTracked (init 100, ⟨0, 0⟩) (res, ())).2 = ⟨0, 1⟩ := by
  decide

end Redpanda.Kafka
