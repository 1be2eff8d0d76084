import Mathlib

/-!
# The replicated state of a metastore database

The state machine behind a replicated LSM database (`LsmState`) keeps the last manifest that was
persisted to object storage, and the rows that were written since: the *volatile buffer*. It is
changed by four updates (`LsmUpdate`). Whether an update may be applied is decided when the update
is built, and once more when it is applied (`canApply`); the state machine ignores an update that it
cannot apply (`doApply`).

The type `β` is that of serialized manifests, `U` that of domain uuids, where `none` is the nil
uuid. The value of a row is `none` if it is empty, which removes the key. Sequence numbers are
integers: the deltas may be negative.

* `accepts_persistManifest_iff`: when a manifest is accepted.
* `doApply_of_accepts`, `doApply_of_not_accepts`: an update takes effect exactly if it is accepted.
-/

namespace Redpanda.LevelOne.Replicated

/-- `write_batch_row`. -/
structure WriteBatchRow (K V : Type*) where
  key : K
  value : Option V
  deriving DecidableEq

/-- `volatile_row`. -/
structure VolatileRow (K V : Type*) where
  seqno : Int
  row : WriteBatchRow K V
  deriving DecidableEq

/-- `lsm_state::serialized_manifest`. -/
structure SerializedManifest (β : Type*) where
  buf : β
  lastSeqno : Int
  databaseEpoch : Int
  deriving DecidableEq

/-- `lsm_state`. -/
structure LsmState (U K V β : Type*) where
  domainUuid : Option U := none
  seqnoDelta : Int := 0
  dbEpochDelta : Int := 0
  volatileBuffer : List (VolatileRow K V) := []
  persistedManifest : Option (SerializedManifest β) := none
  deriving DecidableEq

/-- The updates of the state machine. -/
inductive LsmUpdate (U K V β : Type*)
  | applyWriteBatch (expectedUuid : Option U) (rows : List (WriteBatchRow K V))
  | persistManifest (expectedUuid : Option U) (manifest : SerializedManifest β)
  | setDomainUuid (uuid : Option U)
  | resetManifest (newUuid : Option U) (newManifest : Option (SerializedManifest β))
  deriving DecidableEq

/-- `lsm_update_error`: why an update is rejected, with the values its text reports. -/
inductive LsmUpdateError (U : Type*)
  /-- "Expected domain UUID: {}, actual: {}" -/
  | unexpectedUuid (expected actual : Option U)
  /-- "Write batch is empty" -/
  | emptyWriteBatch
  /-- "Cannot persist manifest up to seqno {} which is below current seqno {}" -/
  | seqnoBelow (seqno current : Int)
  /-- "Cannot persist manifest from epoch {} which is below current epoch {}" -/
  | epochBelow (epoch current : Int)
  /-- "Cannot set domain UUID: already set to {}" -/
  | uuidAlreadySet (uuid : U)
  /-- "Cannot reset manifest: STM already has {} rows" -/
  | hasRows (count : Nat)
  /-- "Cannot reset manifest: STM already has persisted manifest, epoch: {}, seqno: {}" -/
  | hasManifest (epoch seqno : Int)
  deriving DecidableEq

variable {U K V β : Type*}

namespace LsmState

variable (s : LsmState U K V β)

/-- `lsm_state::to_seqno`. -/
def toSeqno (o : Int) : Int :=
  o + s.seqnoDelta

/-- The rows of a write batch that is applied at the offset `o`. -/
def volatileRows (o : Int) (rows : List (WriteBatchRow K V)) : List (VolatileRow K V) :=
  rows.map fun row => ⟨s.toSeqno o, row⟩

/-- The effect of an update in term `t` at the offset `o`, once it is known to be allowed. -/
def effect (t o : Int) : LsmUpdate U K V β → LsmState U K V β
  | .applyWriteBatch _ rows =>
    { s with volatileBuffer := s.volatileBuffer ++ s.volatileRows o rows }
  | .persistManifest _ manifest =>
    { s with
      volatileBuffer := s.volatileBuffer.dropWhile fun row => row.seqno ≤ manifest.lastSeqno
      persistedManifest := some manifest }
  | .setDomainUuid uuid => { s with domainUuid := uuid }
  | .resetManifest newUuid newManifest =>
    { s with
      domainUuid := newUuid
      persistedManifest := newManifest
      -- later offsets and terms are mapped above the persisted ones
      seqnoDelta := (newManifest.map SerializedManifest.lastSeqno).getD 0 - o
      dbEpochDelta := (newManifest.map SerializedManifest.databaseEpoch).getD 0 - t }

section Apply

variable [DecidableEq U] (s : LsmState U K V β)

/-- The `can_apply` functions of the updates. -/
def canApply : LsmUpdate U K V β → Except (LsmUpdateError U) Unit
  | .applyWriteBatch expectedUuid rows =>
    if s.domainUuid ≠ expectedUuid then .error (.unexpectedUuid expectedUuid s.domainUuid)
    else if rows.isEmpty then .error .emptyWriteBatch
    else .ok ()
  | .persistManifest expectedUuid manifest =>
    if s.domainUuid ≠ expectedUuid then .error (.unexpectedUuid expectedUuid s.domainUuid)
    else
      match s.persistedManifest with
      | none => .ok ()
      | some p =>
        if manifest.lastSeqno < p.lastSeqno then
          .error (.seqnoBelow manifest.lastSeqno p.lastSeqno)
        else if manifest.databaseEpoch < p.databaseEpoch then
          .error (.epochBelow manifest.databaseEpoch p.databaseEpoch)
        else .ok ()
  | .setDomainUuid _ =>
    match s.domainUuid with
    | some uuid => .error (.uuidAlreadySet uuid)
    | none => .ok ()
  | .resetManifest _ _ =>
    if ¬ s.volatileBuffer.isEmpty then .error (.hasRows s.volatileBuffer.length)
    else
      match s.persistedManifest with
      | none => .ok ()
      | some p =>
        if 0 < p.lastSeqno then .error (.hasManifest p.databaseEpoch p.lastSeqno) else .ok ()

/-- Whether the update `u` can be applied. -/
def Accepts (u : LsmUpdate U K V β) : Prop :=
  s.canApply u = .ok ()
  deriving Decidable

/-- The `apply` functions of the updates. -/
def applyUpdate (t o : Int) (u : LsmUpdate U K V β) :
    Except (LsmUpdateError U) (LsmState U K V β) :=
  match s.canApply u with
  | .ok () => .ok (s.effect t o u)
  | .error e => .error e

/-- `stm::do_apply`, for one update: an error is logged, and the state stays as it is. -/
def doApply (t o : Int) (u : LsmUpdate U K V β) : LsmState U K V β :=
  match s.applyUpdate t o u with
  | .ok s' => s'
  | .error _ => s

variable {s : LsmState U K V β} {t o : Int} {u : LsmUpdate U K V β}

theorem doApply_of_accepts (hu : s.Accepts u) : s.doApply t o u = s.effect t o u := by
  rw [doApply, applyUpdate, hu]

theorem doApply_of_not_accepts (hu : ¬ s.Accepts u) : s.doApply t o u = s := by
  obtain ⟨e, he⟩ : ∃ e, s.canApply u = .error e := by
    rcases h : s.canApply u with e | x
    · exact ⟨e, rfl⟩
    · exact absurd h hu
  rw [doApply, applyUpdate, he]

theorem accepts_persistManifest_iff {expectedUuid : Option U} {manifest : SerializedManifest β} :
    s.Accepts (.persistManifest expectedUuid manifest) ↔
      s.domainUuid = expectedUuid ∧ ∀ p, s.persistedManifest = some p →
        p.lastSeqno ≤ manifest.lastSeqno ∧ p.databaseEpoch ≤ manifest.databaseEpoch := by
  rw [Accepts, canApply]
  by_cases huuid : s.domainUuid = expectedUuid
  · rw [if_neg (not_not.2 huuid)]
    rcases s.persistedManifest with _ | p
    · simp [huuid]
    · by_cases hseqno : manifest.lastSeqno < p.lastSeqno
      · simp [huuid, hseqno]
      · by_cases hepoch : manifest.databaseEpoch < p.databaseEpoch
        · simp [huuid, hseqno, hepoch]
        · simp [huuid, hseqno, hepoch, not_lt.1 hseqno, not_lt.1 hepoch]
  · simp [huuid]

end Apply

end LsmState

end Redpanda.LevelOne.Replicated
