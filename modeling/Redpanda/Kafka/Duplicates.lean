import Redpanda.Kafka.Produce

/-!
# No key is appended twice

Every key handed to `partition_append` was inserted into the keys seen before, by
the same batch, and a batch with a key seen before is not appended
(`Handled.appendsSeenKeys`). So no key is appended twice along any run from the
start of the process, and each batch turned away for a repeated key leaves one
entry in the file of failed events (`appendedKeys_nodup_of_run`).
-/

namespace Redpanda.Kafka.Shard

open Lib List

variable {s s' : Shard} {req : ProduceRequest} {answer : Answer}

/-- The keys of all records handed to `partition_append`. -/
def appendedKeys (s : Shard) : List Key := s.appends.flatMap fun a => keysOf a.records

/-- The batch is well formed but has a repeated key. -/
def TurnsAway (s : Shard) (req : ProduceRequest) : Prop :=
  req.surroundings.validation = none ∧
    ∃ records, req.batch.records = some records ∧ Repeats s.seenKeys records

/-- The appended keys are different, and were all seen. -/
structure AppendsSeenKeys (s : Shard) : Prop where
  nodup : s.appendedKeys.Nodup
  seen : ∀ k ∈ s.appendedKeys, k ∈ s.seenKeys

theorem appendsSeenKeys_init : Shard.init.AppendsSeenKeys :=
  ⟨nodup_nil, nofun⟩

/-- Seeing more keys without appending. -/
theorem AppendsSeenKeys.of_appends_eq (h : s.AppendsSeenKeys) (happ : s'.appends = s.appends)
    (hseen : ∀ k ∈ s.seenKeys, k ∈ s'.seenKeys) : s'.AppendsSeenKeys := by
  have hkeys : s'.appendedKeys = s.appendedKeys := by simp [appendedKeys, happ]
  exact ⟨hkeys ▸ h.nodup, fun k hk => hseen k (h.seen k (hkeys ▸ hk))⟩

section

variable (h : s.Handled req s' answer)

include h

theorem Handled.appendsSeenKeys (hs : s.AppendsSeenKeys) : s'.AppendsSeenKeys := by
  cases h with
  | invalid | malformed => exact hs.of_appends_eq rfl fun _ => id
  | duplicate | refused | fakeSuccess =>
    exact hs.of_appends_eq rfl fun _ hk => mem_append_right _ hk
  | @appended records p _ _ _ hrep =>
    have hkeys : appendedKeys { s.count.remember req.topic (keysOf records) with
        appends := s.appends ++ [⟨⟨req.topic, p⟩, records, req.surroundings.replicate.toBool⟩] } =
        s.appendedKeys ++ keysOf records := by
      simp [appendedKeys]
    -- the keys of the batch are different and were not seen, so not appended either
    rw [Repeats, not_or, not_not] at hrep
    refine ⟨?_, fun k hk => ?_⟩
    · rw [hkeys, nodup_append]
      refine ⟨hs.nodup, hrep.2, fun k hk k' hk' heq => ?_⟩
      exact hrep.1 ⟨k, heq ▸ hk', hs.seen k hk⟩
    · rw [hkeys, mem_append] at hk
      exact hk.elim (fun hk => mem_append_right _ (hs.seen k hk))
        fun hk => mem_append_left _ hk

/-- A batch turned away for a repeated key is not appended and leaves one entry in
    the file of failed events. -/
theorem Handled.failedEvents_of_turnsAway (ht : s.TurnsAway req) : s'.appends = s.appends ∧
      ∃ k, s'.failedEvents = s.failedEvents ++ [⟨"DUPLICATE", k, req.topic⟩] := by
  obtain ⟨hvalid, records, hrec, hrep⟩ := ht
  cases h with
  | invalid hinvalid => simp [hvalid] at hinvalid
  | malformed _ hnone => simp [hrec] at hnone
  | duplicate => exact ⟨rfl, _, rfl⟩
  | refused _ hrec' hrep' | fakeSuccess _ hrec' hrep' | appended _ hrec' hrep' =>
    cases hrec.symm.trans hrec'
    exact absurd hrep hrep'

theorem Handled.failedEvents_of_not_turnsAway
    (ht : ¬ s.TurnsAway req) : s'.failedEvents = s.failedEvents := by
  cases h with
  | duplicate hvalid hrec hrep => exact absurd ⟨hvalid, _, hrec, hrep⟩ ht
  | _ => rfl

end

/-- **No key is appended twice**: after any requests handled since the start of the
    process no key was handed to `partition_append` more than once, and the next
    request adds exactly one entry to the failed events if its batch is turned away
    for a repeated key, and none otherwise. -/
theorem appendedKeys_nodup_of_run {requests : List (ProduceRequest × Answer)}
    (hrun : Run Step init requests s) :
    s.appendedKeys.Nodup ∧
    ∀ {req answer s'}, s.Step (req, answer) s' →
      (s.TurnsAway req → s'.appends = s.appends ∧
        ∃ k, s'.failedEvents = s.failedEvents ++ [⟨"DUPLICATE", k, req.topic⟩]) ∧
      (¬ s.TurnsAway req → s'.failedEvents = s.failedEvents) := by
  have hs : s.AppendsSeenKeys :=
    hrun.invariant (fun hs hstep => hstep.handled.appendsSeenKeys hs) appendsSeenKeys_init
  exact ⟨hs.nodup, fun hstep =>
    ⟨hstep.handled.failedEvents_of_turnsAway, hstep.handled.failedEvents_of_not_turnsAway⟩⟩

/-- Two batches with the same key, the second of which is turned away. -/
theorem appendedKeys_nodup_two_batches :
    let ok : Surroundings := ⟨none, none, some 0, true, .ok 0⟩
    let req : ProduceRequest := ⟨"events", 0, ⟨false, 70, some [⟨some [1], none⟩]⟩, 1024, ok⟩
    let stored : Append := ⟨⟨"events", 0⟩, [⟨some [1], none⟩], true⟩
    let s : Shard := ⟨[[1]], 1, [], [("events", [1])], [stored]⟩
    let s' : Shard := ⟨[[1]], 2, [⟨"DUPLICATE", [1], "events"⟩], [("events", [1])], [stored]⟩
    s.appendedKeys.Nodup ∧ s.TurnsAway req ∧
      s.Step (req, .response ⟨0, .none, none, none⟩) s' ∧ s'.appends = s.appends := by
  intro ok req stored s s'
  have hrun : Run Step init [(req, .response ⟨0, .none, none, some 0⟩)] s := .single (by decide)
  have hstep : s.Step (req, .response ⟨0, .none, none, none⟩) s' := by decide
  have ht : s.TurnsAway req := ⟨rfl, _, rfl, .inl ⟨[1], by decide, by decide⟩⟩
  obtain ⟨hnodup, hevents⟩ := appendedKeys_nodup_of_run hrun
  exact ⟨hnodup, ht, hstep, ((hevents hstep).1 ht).1⟩

end Redpanda.Kafka.Shard
