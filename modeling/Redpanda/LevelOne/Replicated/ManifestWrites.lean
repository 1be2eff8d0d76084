import Redpanda.Lib.Pairwise
import Redpanda.Lib.Run
import Redpanda.Lsm.VersionSet
import Redpanda.LevelOne.Replicated.LsmState

/-!
# Manifest writes of a replicated database

A replicated database persists a manifest by replicating it: `write_manifest` uploads the
manifest, builds a `persist_manifest` update, replicates it and waits until the state machine
has applied it. Only then does the version set install the new version. The replication can time
out and still take effect later, and write batches are replicated and applied in between. The
manifest writes of one leader are serialized.

The system is a partial function `next` on `Leader`. `write_manifest` returns normally once its
update is applied (`LeaderAction.succeed`): it does not look at whether the update was accepted.

* `accepted_of_succeed`: if, whenever an update is built, every manifest that is replicated but
  not yet applied is at most as new, the update of a write that returns normally was accepted, and
  every file of the persisted manifest is one of the new current version.
* `exists_succeed_rejected`: without the condition this fails. A flush times out, a compaction
  builds its manifest with the last sequence number from before the flush, the manifest of the flush
  takes effect, and that of the compaction is rejected.
-/

namespace Redpanda.LevelOne.Replicated

open Lib Lsm List

variable {U K V κ : Type*}

/-- How far `write_manifest` has come: the manifest is uploaded, the update is built, or the update
    is replicated at an offset. -/
inductive WritePhase
  | uploading
  | built
  | replicated (offset : Nat)
  deriving DecidableEq

/-- A manifest write under way. -/
structure PendingWrite (κ : Type*) where
  manifest : Manifest κ
  phase : WritePhase
  deriving DecidableEq

/-- A leader: its state machine, the log of its updates with the number of those that are applied
    and whether each of these was accepted, and its open database. -/
structure Leader (U K V κ : Type*) where
  stm : LsmState U K V (Manifest κ)
  log : List (LsmUpdate U K V (Manifest κ)) := []
  accepted : List Bool := []
  versions : VersionSet κ
  write : Option (PendingWrite κ) := none
  deriving DecidableEq

/-- The steps of a leader. -/
inductive LeaderAction (K V κ : Type*)
  /-- `log_and_apply` starts to write the manifest of an edit. -/
  | startWrite (e : VersionEdit κ)
  | build
  | replicate
  /-- `write_manifest` throws: the upload or the replication failed, or the wait timed out. -/
  | fail
  | writeBatch (rows : List (WriteBatchRow K V))
  /-- The state machine applies the next update of the log. -/
  | applyNext
  /-- `write_manifest` returns normally, and the version set installs the new version. -/
  | succeed

/-- The serialized manifest that `write_manifest` replicates. -/
def serialize (m : Manifest κ) : SerializedManifest (Manifest κ) where
  buf := m
  lastSeqno := m.lastSeqno
  databaseEpoch := m.epoch

/-- `version_set::recover`, from the manifest that the state machine has persisted. -/
def recover (s : LsmState U K V (Manifest κ)) : VersionSet κ :=
  match s.persistedManifest with
  | some p =>
    { current := p.buf.version, nextFileId := p.buf.nextFileId, lastSeqno := some p.buf.lastSeqno }
  | none => {}

namespace Leader

variable (d : Leader U K V κ)

/-- The number of updates that are applied. -/
def applied : Nat :=
  d.accepted.length

/-- A leader that has just opened its database. -/
def opened (s : LsmState U K V (Manifest κ)) : Leader U K V κ where
  stm := s
  versions := recover s

variable [DecidableEq U]

/-- The step `a` of a leader of term `t`, with the epoch of its database and the domain uuid
    it expects. -/
def next (t : Int) (epoch : Nat) (uuid : Option U) (d : Leader U K V κ) :
    LeaderAction K V κ → Option (Leader U K V κ)
  | .startWrite e =>
    if d.write.isSome then none
    else
      match d.versions.manifest epoch e with
      | some m => some { d with write := some ⟨m, .uploading⟩ }
      | none => none
  | .build =>
    match d.write with
    | some ⟨m, .uploading⟩ =>
      if d.stm.Accepts (.persistManifest uuid (serialize m)) then
        some { d with write := some ⟨m, .built⟩ }
      else
        -- throws "Invalid persist_manifest update"
        some { d with write := none }
    | _ => none
  | .replicate =>
    match d.write with
    | some ⟨m, .built⟩ =>
      some { d with
        log := d.log ++ [.persistManifest uuid (serialize m)]
        write := some ⟨m, .replicated d.log.length⟩ }
    | _ => none
  | .fail => if d.write.isSome then some { d with write := none } else none
  | .writeBatch rows => some { d with log := d.log ++ [.applyWriteBatch uuid rows] }
  | .applyNext =>
    match d.log[d.applied]? with
    | some u =>
      some { d with
        stm := d.stm.doApply t d.applied u
        accepted := d.accepted ++ [decide (d.stm.Accepts u)] }
    | none => none
  | .succeed =>
    match d.write with
    | some ⟨m, .replicated offset⟩ =>
      if offset < d.applied then
        some { d with versions := d.versions.setCurrent m, write := none }
      else none
    | _ => none

/-! ## The condition -/

variable (m : Manifest κ)

/-- A manifest in the log that is at most as new as `m`. -/
def NotNewer : LsmUpdate U K V (Manifest κ) → Prop
  | .persistManifest _ m' => m'.lastSeqno ≤ m.lastSeqno
  | _ => True

instance : DecidablePred (NotNewer (U := U) (K := K) (V := V) m) := fun u => by
  induction u using LsmUpdate.casesOn <;> unfold NotNewer <;> infer_instance

/-- Every manifest that is replicated but not applied yet is at most as new as the one that is
    uploaded. -/
def Settled : Prop :=
  ∀ w ∈ d.write, ∀ u ∈ d.log.drop d.applied, NotNewer w.manifest u
  deriving Decidable

/-- The leader builds an update only if no newer manifest is still to be applied. -/
def BuildsSettled : LeaderAction K V κ → Prop
  | .build => d.Settled
  | _ => True

instance : DecidablePred d.BuildsSettled := fun a => by
  induction a using LeaderAction.casesOn <;> unfold BuildsSettled <;> infer_instance

/-! ## Invariants -/

/-- The updates that a leader replicates. -/
def Ours (epoch : Nat) (uuid : Option U) : LsmUpdate U K V (Manifest κ) → Prop
  | .applyWriteBatch _ _ => True
  | .persistManifest expectedUuid m => expectedUuid = uuid ∧ m.databaseEpoch = epoch
  | _ => False

/-- The state machine would accept the manifest `m`, as far as the persisted one goes. -/
def Ready (s : LsmState U K V (Manifest κ)) : Prop :=
  ∀ p, s.persistedManifest = some p → p.lastSeqno ≤ m.lastSeqno ∧ p.databaseEpoch ≤ m.epoch

/-- The manifest `m` will be accepted, whatever of the log is applied before it. -/
structure Clear (d : Leader U K V κ) (m : Manifest κ) : Prop where
  ready : Ready m d.stm
  notNewer : ∀ u ∈ d.log.drop d.applied, NotNewer m u

/-- The manifest `m`, replicated at the offset `o`, was accepted, and is the persisted one. -/
structure Taken (d : Leader U K V κ) (m : Manifest κ) (o : Nat) : Prop where
  lt : o < d.applied
  accepted : d.accepted[o]? = some true
  persisted : d.stm.persistedManifest = some (serialize m)

/-- How far the write of the manifest `m` has come. -/
def Progress (uuid : Option U) (d : Leader U K V κ) (m : Manifest κ) : WritePhase → Prop
  | .uploading => True
  | .built => d.Clear m
  | .replicated o =>
    d.log[o]? = some (.persistManifest uuid (serialize m)) ∧
      (∀ u ∈ d.log.drop (o + 1), ∀ e m', u ≠ .persistManifest e m') ∧
      (d.applied ≤ o ∧ d.Clear m ∨ d.Taken m o)

/-- What holds of every reachable leader. -/
structure Inv (epoch : Nat) (uuid : Option U) (d : Leader U K V κ) : Prop where
  applied_le : d.applied ≤ d.log.length
  domainUuid : d.stm.domainUuid = uuid
  ours : ∀ u ∈ d.log, Ours epoch uuid u
  epoch_eq : ∀ w, d.write = some w → w.manifest.epoch = epoch
  progress : ∀ w, d.write = some w → d.Progress uuid w.manifest w.phase

section Steps

variable {t : Int} {epoch : Nat} {uuid : Option U} {d d' : Leader U K V κ} {m : Manifest κ}
  {s : LsmState U K V (Manifest κ)} {u : LsmUpdate U K V (Manifest κ)} {o : Int}

section

omit [DecidableEq U]

theorem inv_opened (hs : s.domainUuid = uuid) : (opened s).Inv epoch uuid :=
  ⟨Nat.le_refl _, hs, nofun, nofun, nofun⟩

theorem notNewer_of_ne (hne : ∀ e m', u ≠ .persistManifest e m') : NotNewer m u := by
  match u with
  | .persistManifest e m' => exact absurd rfl (hne e m')
  | .applyWriteBatch .. | .setDomainUuid .. | .resetManifest .. => trivial

theorem forall_mem_drop_append {α : Type*} {P : α → Prop} {l : List α} {n : Nat} {a : α}
    (hn : n ≤ l.length) (hl : ∀ x ∈ l.drop n, P x) (ha : P a) : ∀ x ∈ (l ++ [a]).drop n, P x := by
  rw [drop_append_of_le_length hn]
  exact forall_mem_concat.2 ⟨hl, ha⟩

theorem Clear.append (hclear : d.Clear m) (hle : d.applied ≤ d.log.length) (hu : NotNewer m u) :
    Clear { d with log := d.log ++ [u] } m :=
  ⟨hclear.ready, forall_mem_drop_append hle hclear.notNewer hu⟩

variable (hd : d.Inv epoch uuid)

include hd

/-- Replicating an update that persists no manifest. -/
theorem inv_append (hu : Ours epoch uuid u)
    (hne : ∀ e m', u ≠ .persistManifest e m') : Inv epoch uuid { d with log := d.log ++ [u] } := by
  refine ⟨?_, hd.domainUuid, ?_, hd.epoch_eq, fun w hw => ?_⟩
  · exact hd.applied_le.trans (length_append ▸ Nat.le_add_right _ _)
  · exact forall_mem_concat.2 ⟨hd.ours, hu⟩
  · have hprogress := hd.progress w hw
    rcases w with ⟨m, _ | _ | o⟩
    · trivial
    · exact hprogress.append hd.applied_le (notNewer_of_ne hne)
    · obtain ⟨hlog, hafter, hstate⟩ := hprogress
      have ho : o < d.log.length := (List.getElem?_eq_some_iff.1 hlog).1
      refine ⟨?_, forall_mem_drop_append ho hafter hne, ?_⟩
      · rw [getElem?_append_left ho]
        exact hlog
      · rcases hstate with ⟨hle, hclear⟩ | htaken
        · exact .inl ⟨hle, hclear.append hd.applied_le (notNewer_of_ne hne)⟩
        · exact .inr { htaken with }

/-- Replicating the manifest that is built. -/
theorem inv_replicate (hw : d.write = some ⟨m, .built⟩) : Inv epoch uuid { d with
      log := d.log ++ [.persistManifest uuid (serialize m)]
      write := some ⟨m, .replicated d.log.length⟩ } := by
  have hm : m.epoch = epoch := hd.epoch_eq _ hw
  have hclear : d.Clear m := hd.progress _ hw
  refine ⟨?_, hd.domainUuid, ?_, ?_, ?_⟩
  · exact hd.applied_le.trans (length_append ▸ Nat.le_add_right _ _)
  · refine forall_mem_concat.2 ⟨hd.ours, ⟨rfl, ?_⟩⟩
    rw [← hm]
    rfl
  · rintro w ⟨⟩
    exact hm
  · rintro w ⟨⟩
    refine ⟨getElem?_concat_length, ?_, .inl ⟨hd.applied_le, ?_⟩⟩
    · intro u hu
      rw [drop_eq_nil_of_le (by simp)] at hu
      exact nomatch hu
    · exact ⟨hclear.ready, forall_mem_drop_append hd.applied_le hclear.notNewer (Int.le_refl _)⟩

/-- The write ends, or starts with the upload of a manifest of this database. -/
theorem inv_write {w : Option (PendingWrite κ)} {versions : VersionSet κ}
    (hw : ∀ w', w = some w' → w'.manifest.epoch = epoch ∧ w'.phase = .uploading) :
    Inv epoch uuid { d with versions := versions, write := w } := by
  refine ⟨hd.applied_le, hd.domainUuid, hd.ours, fun w' hw' => (hw w' hw').1, fun w' hw' => ?_⟩
  rw [(hw w' hw').2]
  trivial

end

/-- An update of the leader keeps the domain uuid, and persists its manifest at most. -/
theorem doApply_ours (hu : Ours epoch uuid u) : (s.doApply t o u).domainUuid = s.domainUuid ∧
    ((s.doApply t o u).persistedManifest = s.persistedManifest ∨
      ∃ e m', u = .persistManifest e m' ∧ (s.doApply t o u).persistedManifest = some m') := by
  by_cases haccepts : s.Accepts u
  · rw [LsmState.doApply_of_accepts haccepts]
    match u, hu with
    | .applyWriteBatch _ _, _ => exact ⟨rfl, .inl rfl⟩
    | .persistManifest e m', _ => exact ⟨rfl, .inr ⟨e, m', rfl, rfl⟩⟩
  · rw [LsmState.doApply_of_not_accepts haccepts]
    exact ⟨rfl, .inl rfl⟩

/-- Updates of the leader that are not newer keep the state machine ready for a manifest. -/
theorem ready_doApply (hready : Ready m s) (hm : m.epoch = epoch)
    (hu : Ours epoch uuid u) (hnewer : NotNewer m u) : Ready m (s.doApply t o u) := by
  rcases (doApply_ours (s := s) (t := t) (o := o) hu).2 with h | ⟨_, _, rfl, h⟩ <;> rw [Ready, h]
  · exact hready
  · rintro p ⟨⟩
    exact ⟨hnewer, hu.2.trans_le (Int.ofNat_le.2 hm.ge)⟩

/-- Building an update when no newer manifest is still to be applied. -/
theorem inv_build (hd : d.Inv epoch uuid) (hw : d.write = some ⟨m, .uploading⟩)
    (hsettled : d.Settled) (haccepts : d.stm.Accepts (.persistManifest uuid (serialize m))) :
    Inv epoch uuid { d with write := some ⟨m, .built⟩ } := by
  have hm : m.epoch = epoch := hd.epoch_eq _ hw
  have hnewer : ∀ u ∈ d.log.drop d.applied, NotNewer m u := hsettled _ hw
  refine ⟨hd.applied_le, hd.domainUuid, hd.ours, ?_, ?_⟩
  · rintro w ⟨⟩
    exact hm
  · rintro w ⟨⟩
    exact ⟨(LsmState.accepts_persistManifest_iff.1 haccepts).2, hnewer⟩

/-- Applying the next update of the log. -/
theorem inv_applyNext (hd : d.Inv epoch uuid) (hu : d.log[d.applied]? = some u) :
    Inv epoch uuid { d with
      stm := d.stm.doApply t d.applied u
      accepted := d.accepted ++ [decide (d.stm.Accepts u)] } := by
  obtain ⟨hlt, rfl⟩ := List.getElem?_eq_some_iff.1 hu
  have hours : Ours epoch uuid d.log[d.applied] := hd.ours _ (List.getElem_mem hlt)
  have hdrop : d.log.drop d.applied = d.log[d.applied] :: d.log.drop (d.applied + 1) :=
    drop_eq_getElem_cons hlt
  have happlied : (d.accepted ++ [decide (d.stm.Accepts d.log[d.applied])]).length =
      d.applied + 1 := length_append
  have hclear : ∀ m, m.epoch = epoch → d.Clear m →
      Clear { d with
        stm := d.stm.doApply t d.applied d.log[d.applied]
        accepted := d.accepted ++ [decide (d.stm.Accepts d.log[d.applied])] } m := by
    intro m hm hclear
    have hnewer := hclear.notNewer
    rw [hdrop, forall_mem_cons] at hnewer
    refine ⟨ready_doApply hclear.ready hm hours hnewer.1, ?_⟩
    rw [applied, happlied]
    exact hnewer.2
  refine ⟨?_, ?_, hd.ours, hd.epoch_eq, fun w hw => ?_⟩
  · rw [applied, happlied]
    exact hlt
  · exact (doApply_ours hours).1.trans hd.domainUuid
  · have hprogress := hd.progress w hw
    have hm := hd.epoch_eq w hw
    rcases w with ⟨m, _ | _ | o⟩
    · trivial
    · exact hclear m hm hprogress
    · obtain ⟨hlog, hafter, hstate⟩ := hprogress
      refine ⟨hlog, hafter, ?_⟩
      rcases hstate with ⟨hle, hstate⟩ | htaken
      · rcases Nat.lt_or_eq_of_le hle with hlt' | rfl
        · left
          rw [applied, happlied]
          exact ⟨hlt', hclear m hm hstate⟩
        · -- this is the update of the write
          right
          have hown : d.log[d.applied] = .persistManifest uuid (serialize m) :=
            Option.some.inj (hu.symm.trans hlog)
          have haccepts : d.stm.Accepts d.log[d.applied] := by
            rw [hown]
            exact LsmState.accepts_persistManifest_iff.2 ⟨hd.domainUuid, hstate.ready⟩
          refine ⟨?_, ?_, ?_⟩
          · exact Nat.lt_of_lt_of_eq (Nat.lt_succ_self d.applied) happlied.symm
          · rw [decide_eq_true haccepts]
            exact getElem?_concat_length
          · rw [LsmState.doApply_of_accepts haccepts, hown]
            rfl
      · -- only write batches come after the update of the write
        right
        have hmem : d.log[d.applied] ∈ d.log.drop (o + 1) := by
          rw [mem_drop_iff_getElem]
          refine ⟨d.applied - (o + 1), by have := htaken.lt; omega, ?_⟩
          congr 1
          have := htaken.lt
          omega
        refine ⟨?_, ?_, ?_⟩
        · rw [applied, happlied]
          exact Nat.lt_succ_of_lt htaken.lt
        · rw [getElem?_append_left htaken.lt]
          exact htaken.accepted
        · rw [(doApply_ours hours).2.resolve_right fun ⟨e, m', h, _⟩ => hafter _ hmem e m' h]
          exact htaken.persisted

theorem succeed_eq_some (hnext : d.next t epoch uuid .succeed = some d') :
    ∃ m o, d.write = some ⟨m, .replicated o⟩ ∧ o < d.applied ∧
      d' = { d with versions := d.versions.setCurrent m, write := none } := by
  rw [next] at hnext
  split at hnext
  · rename_i m o hw
    obtain ⟨ho, hnext⟩ := Option.ite_none_right_eq_some.1 hnext
    exact ⟨m, o, hw, ho, (Option.some.inj hnext).symm⟩
  · exact nomatch hnext

/-- A step that builds updates only if no newer manifest is still to be applied keeps the
    invariant. -/
theorem inv_of_next (hd : d.Inv epoch uuid) {a : LeaderAction K V κ} (ha : d.BuildsSettled a)
    (hnext : d.next t epoch uuid a = some d') : d'.Inv epoch uuid := by
  cases a with
  | startWrite e =>
    obtain ⟨_, hnext⟩ := Option.ite_none_left_eq_some.1 hnext
    rcases hm : d.versions.manifest epoch e with _ | m
    · simp [hm] at hnext
    · rw [hm] at hnext
      cases hnext
      refine inv_write hd ?_
      rintro w ⟨⟩
      obtain ⟨_, _, rfl⟩ := Option.map_eq_some_iff.1 hm
      exact ⟨rfl, rfl⟩
  | build =>
    rw [next] at hnext
    split at hnext
    · rename_i m hw
      -- an update that the state machine would refuse is not replicated
      by_cases haccepts : d.stm.Accepts (.persistManifest uuid (serialize m))
      · rw [if_pos haccepts] at hnext
        cases hnext
        exact inv_build hd hw ha haccepts
      · rw [if_neg haccepts] at hnext
        cases hnext
        exact inv_write hd nofun
    · exact nomatch hnext
  | replicate =>
    rw [next] at hnext
    split at hnext
    · rename_i m hw
      cases hnext
      exact inv_replicate hd hw
    · exact nomatch hnext
  | fail =>
    obtain ⟨_, rfl⟩ := Option.ite_some_none_eq_some.1 hnext
    exact inv_write hd nofun
  | writeBatch rows =>
    cases hnext
    exact inv_append hd trivial nofun
  | applyNext =>
    rw [next] at hnext
    split at hnext
    · rename_i u hu
      cases hnext
      exact inv_applyNext hd hu
    · exact nomatch hnext
  | succeed =>
    obtain ⟨m, o, _, _, rfl⟩ := succeed_eq_some hnext
    exact inv_write hd nofun

end Steps

/-! ## Runs -/

/-- A step that builds updates only if no newer manifest is still to be applied. -/
def SettledStep (t : Int) (epoch : Nat) (uuid : Option U) (d : Leader U K V κ)
    (a : LeaderAction K V κ) (d' : Leader U K V κ) : Prop :=
  d.BuildsSettled a ∧ d.next t epoch uuid a = some d'

/-- A manifest write that returns normally has persisted its manifest: if updates are only built
    when no newer manifest is still to be applied, the update that the write replicated was
    accepted when it was applied, and every file of the persisted manifest is one of the new
    current version. -/
theorem accepted_of_succeed {t : Int} {epoch : Nat} {uuid : Option U}
    {s : LsmState U K V (Manifest κ)} {d d' : Leader U K V κ} {l : List (LeaderAction K V κ)}
    (hs : s.domainUuid = uuid) (hrun : Run (SettledStep t epoch uuid) (opened s) l d)
    (hsucceed : d.next t epoch uuid .succeed = some d') :
    (∃ m o, d.write = some ⟨m, .replicated o⟩ ∧
        d.log[o]? = some (.persistManifest uuid (serialize m)) ∧ d.accepted[o]? = some true) ∧
      ∃ p, d'.stm.persistedManifest = some p ∧
        ∀ f ∈ p.buf.version.files, f ∈ d'.versions.current.files := by
  have hinv : d.Inv epoch uuid :=
    hrun.invariant (P := Inv epoch uuid) (fun hd hstep => inv_of_next hd hstep.1 hstep.2)
      (inv_opened hs)
  obtain ⟨m, o, hw, ho, rfl⟩ := succeed_eq_some hsucceed
  obtain ⟨hlog, _, ⟨hle, _⟩ | htaken⟩ := hinv.progress _ hw
  · exact absurd ho (Nat.not_lt.2 hle)
  · exact ⟨⟨m, o, hw, hlog, htaken.accepted⟩, serialize m, htaken.persisted, fun _ => id⟩

/-! ### Two runs

A database of epoch 1 with two files of level 0 and the last sequence number 5, whose state machine
has the domain uuid 9. -/

/-- The state machine at the start. -/
def twoFilesState : LsmState Nat Nat Nat (Manifest Nat) where
  domainUuid := some 9
  persistedManifest := some (serialize
    { version := ⟨[(0, ⟨⟨2, 1⟩, 0, 5⟩), (0, ⟨⟨3, 1⟩, 3, 9⟩)]⟩
      nextFileId := 4, lastSeqno := 5, epoch := 1 })

/-- A flush that writes the sequence numbers up to 7. -/
def flushEdit : VersionEdit Nat where
  addedFiles := [(0, ⟨⟨4, 1⟩, 1, 2⟩)]
  lastSeqno := some 7

/-- A compaction of the two files. -/
def compactionEdit : VersionEdit Nat where
  removedFiles := [(0, ⟨2, 1⟩), (0, ⟨3, 1⟩)]
  addedFiles := [(1, ⟨⟨5, 1⟩, 0, 9⟩)]

/-- A flush and a compaction, both of which succeed. -/
def flushThenCompact : List (LeaderAction Nat Nat Nat) :=
  [.writeBatch [⟨1, some 10⟩], .applyNext, .startWrite flushEdit, .build, .replicate, .applyNext,
    .succeed, .startWrite compactionEdit, .build, .replicate, .applyNext]

theorem accepted_of_succeed_flushThenCompact :
    ∃ d d' : Leader Nat Nat Nat Nat, d.next 1 1 (some 9) .succeed = some d' ∧
      d.accepted = [true, true, true] ∧
      ∃ p, d'.stm.persistedManifest = some p ∧
        ∀ f ∈ p.buf.version.files, f ∈ d'.versions.current.files := by
  have heval : (flushThenCompact.foldlM (fun d a =>
      if BuildsSettled d a then next 1 1 (some 9) d a else none) (opened twoFilesState)).map
        (fun d => (d.accepted, (d.next 1 1 (some 9) .succeed).isSome)) =
      some ([true, true, true], true) := by
    decide
  obtain ⟨d, hrun, hd⟩ := Run.exists_of_foldlM heval
  obtain ⟨haccepted, hsome⟩ := Prod.mk.inj hd
  obtain ⟨d', hsucceed⟩ := Option.isSome_iff_exists.1 hsome
  have hrun' : Run (SettledStep 1 1 (some 9)) (opened twoFilesState) flushThenCompact d := hrun
  have huuid : twoFilesState.domainUuid = some 9 := rfl
  exact ⟨d, d', hsucceed, haccepted, (accepted_of_succeed huuid hrun' hsucceed).2⟩

/-- The wait for the flush times out. The manifest of the compaction is built before that of the
    flush is applied, so it carries the last sequence number 5, and is rejected after it. -/
def compactAfterTimeout : List (LeaderAction Nat Nat Nat) :=
  [.writeBatch [⟨1, some 10⟩], .applyNext, .startWrite flushEdit, .build, .replicate, .fail,
    .startWrite compactionEdit, .build, .replicate, .applyNext, .applyNext]

theorem exists_succeed_rejected :
    ∃ d d' : Leader Nat Nat Nat Nat,
      Run (fun d a d' => next 1 1 (some 9) d a = some d') (opened twoFilesState)
        compactAfterTimeout d ∧ d.next 1 1 (some 9) .succeed = some d' ∧
      d.accepted = [true, true, false] ∧
      ∃ p, d'.stm.persistedManifest = some p ∧
        p.buf.version.handles = [⟨2, 1⟩, ⟨3, 1⟩, ⟨4, 1⟩] ∧
        d'.versions.current.handles = [⟨5, 1⟩] := by
  have heval : (compactAfterTimeout.foldlM (next 1 1 (some 9)) (opened twoFilesState)).bind
      (fun d => (d.next 1 1 (some 9) .succeed).map fun d' =>
        (d.accepted, d'.stm.persistedManifest.map fun p => p.buf.version.handles,
          d'.versions.current.handles)) =
      some ([true, true, false], some [⟨2, 1⟩, ⟨3, 1⟩, ⟨4, 1⟩], [⟨5, 1⟩]) := by
    decide
  obtain ⟨d, hd, heval⟩ := Option.bind_eq_some_iff.1 heval
  obtain ⟨d', hd', heval⟩ := Option.map_eq_some_iff.1 heval
  obtain ⟨haccepted, heval⟩ := Prod.mk.inj heval
  obtain ⟨hpersisted, hcurrent⟩ := Prod.mk.inj heval
  obtain ⟨p, hp, hfiles⟩ := Option.map_eq_some_iff.1 hpersisted
  exact ⟨d, d', Run.of_foldlM hd, hd', haccepted, p, hp, hfiles, hcurrent⟩

end Leader

end Redpanda.LevelOne.Replicated
