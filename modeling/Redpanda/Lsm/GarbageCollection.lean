import Redpanda.Lib.Run
import Redpanda.Lsm.VersionSet

/-!
# Garbage collection of data files

The flushes and compactions of an LSM database write data files under ids that their edits
allocate, and write manifests one after the other. Readers keep the versions they read alive.
After a compaction the database tells its garbage collector which files are live and up to which
id no edit is under way (`gcMessage`). The collector works on such messages later: it lists the
files in storage, remembers a deadline for each file that a message lets it collect
(`GcMessage.Collects`), and removes files whose deadline has passed, whatever happened in between.

The system is a partial function `next` on `Database`. What is under way is kept as a list of
jobs; a job that writes its manifest holds the lock, so there is at most one.

* `Referenced`: a live version, an edit under way, the manifest being written or the persisted
  manifest refers to a file.
* `Effect.referenced`: a step only lets files be referenced that were referenced before, or
  that it allocates.
* `Wf`: in particular, every file that a message lets the collector collect and every file with
  a deadline is `Forgotten`: it is not referenced, and its id is not allocated again.
* `not_referenced_of_gcRemove`: so no file is removed that is referenced, then or later.
* `mem_storage_of_run`: and no file that is in use is missing from the storage.
-/

namespace Redpanda.Lsm

open Lib List
open Option (bind_eq_some_iff ite_none_right_eq_some ite_some_none_eq_some)

/-- A flush or a compaction under way. A compaction keeps its input version alive; its edit is
    complete once all of its output is written. -/
structure Job (κ : Type*) where
  inputVersion : Option (Version κ) := none
  inputs : List (Level × FileMetaData κ) := []
  allocated : List Nat := []
  edit : Option (VersionEdit κ) := none
  deriving DecidableEq

/-- A manifest write under way, and whether it has taken effect. -/
structure ManifestWrite (κ : Type*) where
  job : Job κ
  manifest : Manifest κ
  persisted : Bool := false
  deriving DecidableEq

/-- `gc_message`. -/
structure GcMessage where
  liveFiles : List FileHandle
  safeHighestFileId : Nat
  deriving DecidableEq

/-- An open LSM database with its garbage collector. -/
structure Database (κ : Type*) where
  versions : VersionSet κ
  /-- The versions held by gets and iterators. -/
  readers : List (Version κ) := []
  jobs : List (Job κ) := []
  writing : Option (ManifestWrite κ) := none
  /-- The compactions whose edit is installed, which have not told the collector yet. -/
  installed : List (Job κ) := []
  /-- The version of the last persisted manifest. -/
  persisted : Version κ := {}
  storage : List FileHandle := []
  clock : Nat := 0
  mailbox : List GcMessage := []
  /-- The message that the collector works on, and the time at which it started. -/
  processing : Option (GcMessage × Nat) := none
  pendingDeletes : List (FileHandle × Nat) := []
  deriving DecidableEq

/-- The steps of a database. -/
inductive DatabaseAction (κ : Type*)
  | startFlush
  | startCompaction (inputs : List (Level × FileMetaData κ))
  | allocateId (j : Job κ)
  | finishFlush (j : Job κ) (level : Level) (f : FileMetaData κ) (lastSeqno : Nat)
  | finishCompaction (j : Job κ) (outputs : List (Level × FileMetaData κ))
  | moveFile (j : Job κ)
  | fail (j : Job κ)
  | logAndApply (j : Job κ)
  | manifestWritten
  | manifestFailed
  | setCurrent
  | tellGc (j : Job κ)
  | acquire
  | release (v : Version κ)
  | tick
  | gcStart (msg : GcMessage)
  | gcList (h : FileHandle)
  | gcRemove (h : FileHandle) (deadline : Nat)
  | gcEnd

variable {κ : Type*}

/-- The edit of a trivial move: the only input of the compaction goes to the next level. -/
def Job.moveEdit (j : Job κ) : Option (VersionEdit κ) :=
  match j.inputs with
  | [(level, f)] =>
    some { removedFiles := [(level, f.handle)], addedFiles := [(level + 1, f)] }
  | _ => none

/-- A trivial move adds the files that it was given. -/
theorem Job.mem_inputs_of_moveEdit {j : Job κ} {e : VersionEdit κ} (he : j.moveEdit = some e)
    {g : Level × FileMetaData κ} (hg : g ∈ e.addedFiles) : ∃ f ∈ j.inputs, f.2 = g.2 := by
  rw [moveEdit] at he
  split at he
  · cases he
    rw [mem_singleton.1 hg, ‹j.inputs = _›]
    exact ⟨_, mem_singleton_self _, rfl⟩
  · exact nomatch he

namespace GcMessage

/-- Whether `gc_actor::process` schedules the removal of a listed file of a database of the given
    epoch. -/
def Collects (msg : GcMessage) (epoch : Nat) (h : FileHandle) : Prop :=
  h ∉ msg.liveFiles ∧ h.epoch ≤ epoch ∧ (h.epoch = epoch → h.id ≤ msg.safeHighestFileId)
  deriving Decidable

end GcMessage

namespace Database

variable (d : Database κ)

/-- The edits that are alive: those of the jobs under way, of the manifest write, and of the
    compactions that have not told the collector yet. -/
def liveEdits : List (Job κ) :=
  d.jobs ++ (d.writing.map ManifestWrite.job).toList ++ d.installed

/-- The versions that are alive. -/
def liveVersions : List (Version κ) :=
  d.versions.current :: d.readers ++ d.liveEdits.filterMap Job.inputVersion

/-- `version_set::get_live_files`. -/
def getLiveFiles : List FileHandle :=
  d.liveVersions.flatMap Version.handles

/-- `version_set::min_uncommitted_file_id`. -/
def minUncommittedFileId : Nat :=
  (d.liveEdits.flatMap Job.allocated).foldl min d.versions.nextFileId

/-- The message that `impl::do_compaction` sends at its end. -/
def gcMessage : GcMessage where
  liveFiles := d.getLiveFiles
  safeHighestFileId := d.minUncommittedFileId - 1

/-- Replace the job `j` by `j'`. -/
def setJob [DecidableEq κ] (d : Database κ) (j j' : Job κ) : Database κ :=
  { d with jobs := j' :: d.jobs.erase j }

variable (epoch : Nat)

/-- The database after an edit has allocated an id and written its file. -/
def allocate : Database κ :=
  { d with
    versions := { d.versions with nextFileId := d.versions.nextFileId + 1 }
    storage := ⟨d.versions.nextFileId, epoch⟩ :: d.storage }

/-- The database after the manifest of `w` is installed. A compaction stays alive until it has
    told the collector, a flush is over. -/
def install (w : ManifestWrite κ) : Database κ :=
  { d with
    versions := d.versions.setCurrent w.manifest
    writing := none
    installed := if w.job.inputVersion = none then d.installed else w.job :: d.installed }

/-- The step `a` of a database of the given epoch that keeps files for `delay` after they are
    scheduled for removal. -/
def next [DecidableEq κ] (epoch delay : Nat) (d : Database κ) :
    DatabaseAction κ → Option (Database κ)
  | .startFlush =>
    -- the memtable is built into one file
    some { d.allocate epoch with jobs := { allocated := [d.versions.nextFileId] } :: d.jobs }
  | .startCompaction inputs =>
    if inputs ⊆ d.versions.current.files then
      some { d with
        jobs := { inputVersion := some d.versions.current, inputs := inputs } :: d.jobs }
    else none
  | .allocateId j =>
    if j ∈ d.jobs ∧ j.inputVersion ≠ none ∧ j.edit = none then
      some ((d.allocate epoch).setJob j
        { j with allocated := d.versions.nextFileId :: j.allocated })
    else none
  | .finishFlush j level f lastSeqno =>
    if j ∈ d.jobs ∧ j.inputVersion = none ∧ j.edit = none ∧ f.handle.epoch = epoch ∧
        f.handle.id ∈ j.allocated then
      some (d.setJob j
        { j with edit := some { addedFiles := [(level, f)], lastSeqno := some lastSeqno } })
    else none
  | .finishCompaction j outputs =>
    if j ∈ d.jobs ∧ j.inputVersion ≠ none ∧ j.edit = none ∧
        ∀ f ∈ outputs, f.2.handle.epoch = epoch ∧ f.2.handle.id ∈ j.allocated then
      some (d.setJob j
        { j with
          edit := some
            { removedFiles := j.inputs.map fun f => (f.1, f.2.handle)
              addedFiles := outputs } })
    else none
  | .moveFile j =>
    if j ∈ d.jobs ∧ j.inputVersion ≠ none ∧ j.edit = none then
      j.moveEdit.map fun e => d.setJob j { j with edit := some e }
    else none
  | .fail j =>
    if j ∈ d.jobs then some { d with jobs := d.jobs.erase j } else none
  | .logAndApply j =>
    if j ∈ d.jobs ∧ d.writing = none then do
      let e ← j.edit
      let m ← d.versions.manifest epoch e
      some { d with jobs := d.jobs.erase j, writing := some { job := j, manifest := m } }
    else none
  | .manifestWritten => do
    let w ← d.writing
    if w.persisted then none
    else
      some { d with
        writing := some { w with persisted := true }, persisted := w.manifest.version }
  | .manifestFailed => do
    let w ← d.writing
    if w.persisted then none else some { d with writing := none }
  | .setCurrent => do
    let w ← d.writing
    if w.persisted then some (d.install w) else none
  | .tellGc j =>
    if j ∈ d.installed then
      some { d with mailbox := d.gcMessage :: d.mailbox, installed := d.installed.erase j }
    else none
  | .acquire => some { d with readers := d.versions.current :: d.readers }
  | .release v => some { d with readers := d.readers.erase v }
  | .tick => some { d with clock := d.clock + 1 }
  | .gcStart msg =>
    if msg ∈ d.mailbox ∧ d.processing = none then
      some { d with processing := some (msg, d.clock) }
    else none
  | .gcList h =>
    match d.processing with
    | some (msg, now) =>
      if h ∈ d.storage ∧ msg.Collects epoch h ∧ h ∉ d.pendingDeletes.map Prod.fst then
        some { d with pendingDeletes := (h, now + delay) :: d.pendingDeletes }
      else none
    | none => none
  | .gcRemove h deadline =>
    match d.processing with
    | some (_, now) =>
      if (h, deadline) ∈ d.pendingDeletes ∧ deadline ≤ now then
        some { d with
          storage := d.storage.filter (· ≠ h)
          pendingDeletes := d.pendingDeletes.erase (h, deadline) }
      else none
    | none => none
  | .gcEnd => some { d with processing := none }

/-! ## References -/

/-- Whether the job `j` of a database of the given epoch can add the file `h`: it allocated its
    id, or read it in its input version. -/
def CanAdd (j : Job κ) (h : FileHandle) : Prop :=
  (h.epoch = epoch ∧ h.id ∈ j.allocated) ∨ ∃ v, j.inputVersion = some v ∧ h ∈ v.handles

/-- Whether a live version, an edit that is alive, or the persisted manifest refers to the
    file `h`. -/
def Referenced (d : Database κ) (h : FileHandle) : Prop :=
  (∃ v ∈ d.liveVersions, h ∈ v.handles) ∨
    (h.epoch = epoch ∧ ∃ j ∈ d.liveEdits, h.id ∈ j.allocated) ∨ h ∈ d.persisted.handles

/-- A file that is not referenced, and whose id is not allocated any more. -/
structure Forgotten (epoch : Nat) (d : Database κ) (h : FileHandle) : Prop where
  not_referenced : ¬ d.Referenced epoch h
  id_lt : h.epoch = epoch → h.id < d.versions.nextFileId

/-- The jobs of a reachable database. -/
structure JobWf (epoch : Nat) (d : Database κ) (j : Job κ) : Prop where
  allocated_lt : ∀ id ∈ j.allocated, 0 < id ∧ id < d.versions.nextFileId
  inputs : ∀ f ∈ j.inputs, ∃ v, j.inputVersion = some v ∧ f.2.handle ∈ v.handles
  added : ∀ e, j.edit = some e → ∀ f ∈ e.addedFiles, CanAdd epoch j f.2.handle

/-- The version of the last manifest that was written: the current one, unless a manifest is
    written that is not installed yet. -/
def writtenVersion : Version κ :=
  match d.writing with
  | some w => if w.persisted then w.manifest.version else d.versions.current
  | none => d.versions.current

theorem writtenVersion_eq : d.writtenVersion = d.versions.current ∨
      ∃ w, d.writing = some w ∧ d.writtenVersion = w.manifest.version := by
  rw [writtenVersion]
  rcases hw : d.writing with _ | w
  · exact .inl rfl
  · by_cases hp : w.persisted
    · exact .inr ⟨w, rfl, if_pos hp⟩
    · exact .inl (if_neg hp)

/-- What holds of the versions, the edits and the manifests of every reachable database. -/
structure Wf (epoch : Nat) (d : Database κ) : Prop where
  nextFileId_pos : 0 < d.versions.nextFileId
  jobs : ∀ j ∈ d.liveEdits, JobWf epoch d j
  writing : ∀ w, d.writing = some w → ∀ h ∈ w.manifest.version.handles,
    h ∈ d.versions.current.handles ∨ CanAdd epoch w.job h
  persisted : d.persisted = d.writtenVersion

/-- What holds of the garbage collector of every reachable database: it forgets only what is
    forgotten already. -/
structure GcSafe (epoch : Nat) (d : Database κ) : Prop where
  mailbox : ∀ msg ∈ d.mailbox, ∀ h, msg.Collects epoch h → d.Forgotten epoch h
  processing : ∀ msg now, d.processing = some (msg, now) → ∀ h, msg.Collects epoch h →
    d.Forgotten epoch h
  pendingDeletes : ∀ h deadline, (h, deadline) ∈ d.pendingDeletes → d.Forgotten epoch h

section Steps

variable {epoch delay : Nat} {d d' : Database κ} {j j' : Job κ} {h : FileHandle}
  {w : ManifestWrite κ} {a : DatabaseAction κ} {e : VersionEdit κ}

/-- An edit lives until it is installed and released. -/
theorem mem_liveEdits :
    j ∈ d.liveEdits ↔ j ∈ d.jobs ∨ (∃ w, d.writing = some w ∧ w.job = j) ∨ j ∈ d.installed := by
  simp only [liveEdits, mem_append, Option.mem_toList, Option.map_eq_some_iff, or_assoc]

/-- A version lives while it is current, read, or the input of an edit. -/
theorem mem_liveVersions {v : Version κ} :
    v ∈ d.liveVersions ↔ v = d.versions.current ∨ v ∈ d.readers ∨
      ∃ j ∈ d.liveEdits, j.inputVersion = some v := by
  simp only [liveVersions, cons_append, mem_cons, mem_append, mem_filterMap]

/-- What an edit may add is referenced. -/
theorem referenced_of_mem_liveEdits (hj : j ∈ d.liveEdits) (hh : CanAdd epoch j h) :
    d.Referenced epoch h := by
  rcases hh with ⟨hepoch, hid⟩ | ⟨v, hv, hh⟩
  · exact .inr (.inl ⟨hepoch, j, hj, hid⟩)
  · exact .inl ⟨v, mem_liveVersions.2 (.inr (.inr ⟨j, hj, hv⟩)), hh⟩

theorem referenced_of_mem_current (hh : h ∈ d.versions.current.handles) : d.Referenced epoch h :=
  .inl ⟨_, mem_liveVersions.2 (.inl rfl), hh⟩

/-- What a manifest that is being written refers to is referenced. -/
theorem Wf.referenced_of_writing (hd : d.Wf epoch) {w : ManifestWrite κ} (hw : d.writing = some w)
    (hh : h ∈ w.manifest.version.handles) : d.Referenced epoch h := by
  rcases hd.writing w hw h hh with hh | hh
  · exact referenced_of_mem_current hh
  · exact referenced_of_mem_liveEdits (mem_liveEdits.2 (.inr (.inl ⟨w, hw, rfl⟩))) hh

/-! ## What a step can do to the references -/

/-- What a step can do to the references of a database. -/
structure Effect (d d' : Database κ) : Prop where
  nextFileId : d.versions.nextFileId ≤ d'.versions.nextFileId
  current : d'.versions.current = d.versions.current ∨
    ∃ w, d.writing = some w ∧ d'.versions.current = w.manifest.version
  readers : ∀ v ∈ d'.readers, v ∈ d.liveVersions
  persisted : d'.persisted = d.persisted ∨
    ∃ w, d.writing = some w ∧ d'.persisted = w.manifest.version
  inputVersion : ∀ j ∈ d'.liveEdits, ∀ v, j.inputVersion = some v → v ∈ d.liveVersions
  allocated : ∀ j ∈ d'.liveEdits, ∀ id ∈ j.allocated,
    d.versions.nextFileId ≤ id ∨ ∃ i ∈ d.liveEdits, id ∈ i.allocated

/-- A step only lets files be referenced that were referenced before, or that it allocates. -/
theorem Effect.referenced (he : Effect d d') (hd : d.Wf epoch) (hh : d'.Referenced epoch h) :
    d.Referenced epoch h ∨ h.epoch = epoch ∧ d.versions.nextFileId ≤ h.id ∧
      ∃ j ∈ d'.liveEdits, h.id ∈ j.allocated := by
  rcases hh with ⟨v, hv, hh⟩ | ⟨hepoch, j, hj, hid⟩ | hh
  · left
    rcases mem_liveVersions.1 hv with rfl | hv | ⟨j, hj, hv⟩
    · rcases he.current with hcurrent | ⟨w, hw, hcurrent⟩
      · exact referenced_of_mem_current (hcurrent ▸ hh)
      · exact hd.referenced_of_writing hw (hcurrent ▸ hh)
    · exact .inl ⟨v, he.readers v hv, hh⟩
    · exact .inl ⟨v, he.inputVersion j hj v hv, hh⟩
  · rcases he.allocated j hj h.id hid with hle | ⟨i, hi, hid⟩
    · exact .inr ⟨hepoch, hle, j, hj, hid⟩
    · exact .inl (.inr (.inl ⟨hepoch, i, hi, hid⟩))
  · left
    rcases he.persisted with hpersisted | ⟨w, hw, hpersisted⟩
    · exact .inr (.inr (hpersisted ▸ hh))
    · exact hd.referenced_of_writing hw (hpersisted ▸ hh)

/-- A file that is forgotten stays so. -/
theorem Effect.forgotten (he : Effect d d') (hd : d.Wf epoch) (hh : d.Forgotten epoch h) :
    d'.Forgotten epoch h := by
  refine ⟨fun href => ?_, fun hepoch => Nat.lt_of_lt_of_le (hh.id_lt hepoch) he.nextFileId⟩
  rcases he.referenced hd href with href | ⟨hepoch, hid, -⟩
  · exact hh.not_referenced href
  · exact absurd (hh.id_lt hepoch) (Nat.not_lt.2 hid)

/-! ## Steps that write no manifest -/

/-- An edit that is alive after a step: it was alive before, or it has what an edit alive before
    has, up to ids that the step allocates. -/
def Inherits (d : Database κ) (j : Job κ) : Prop :=
  (∀ v, j.inputVersion = some v → v ∈ d.liveVersions) ∧ ∀ id ∈ j.allocated,
    d.versions.nextFileId ≤ id ∨ ∃ i ∈ d.liveEdits, id ∈ i.allocated

theorem inherits_of_mem (hj : j ∈ d.liveEdits) : d.Inherits j :=
  ⟨fun _ hv => mem_liveVersions.2 (.inr (.inr ⟨j, hj, hv⟩)), fun _ hid => .inr ⟨j, hj, hid⟩⟩

/-- What a step does that writes no manifest; most steps leave most of this alone. -/
structure Quiet (epoch : Nat) (d d' : Database κ) : Prop where
  nextFileId : d.versions.nextFileId ≤ d'.versions.nextFileId := by exact Nat.le_refl _
  current : d'.versions.current = d.versions.current := by rfl
  readers : ∀ v ∈ d'.readers, v ∈ d.liveVersions := by
    exact fun _ hv => mem_liveVersions.2 (.inr (.inl hv))
  writing : d'.writing = d.writing := by rfl
  persisted : d'.persisted = d.persisted := by rfl
  edits : ∀ j ∈ d'.liveEdits, j ∈ d.liveEdits ∨ d.Inherits j ∧ JobWf epoch d' j := by
    exact fun _ => .inl

/-- The edits that are alive after a step that starts or ends jobs. -/
theorem edits_of_jobs {P : Job κ → Prop} (hwriting : d'.writing = d.writing)
    (hinstalled : ∀ i ∈ d'.installed, i ∈ d.installed) (hjobs : ∀ i ∈ d'.jobs, i ∈ d.jobs ∨ P i) :
    ∀ i ∈ d'.liveEdits, i ∈ d.liveEdits ∨ P i := by
  intro i hi
  rcases mem_liveEdits.1 hi with hi | hi
  · exact (hjobs i hi).imp_left fun hi => mem_liveEdits.2 (.inl hi)
  · exact .inl (mem_liveEdits.2 (.inr (hi.imp (hwriting ▸ id) (hinstalled i))))

theorem JobWf.of_le (hj : JobWf epoch d j)
    (hnext : d.versions.nextFileId ≤ d'.versions.nextFileId) : JobWf epoch d' j :=
  ⟨fun id hid => ⟨(hj.allocated_lt id hid).1, Nat.lt_of_lt_of_le (hj.allocated_lt id hid).2 hnext⟩,
    hj.inputs, hj.added⟩

/-- A quiet step changes no reference. -/
theorem Quiet.effect (hq : Quiet epoch d d') : Effect d d' where
  __ := hq
  current := .inl hq.current
  persisted := .inl hq.persisted
  inputVersion j hj := (hq.edits j hj).elim (fun hj => (inherits_of_mem hj).1) (fun hj => hj.1.1)
  allocated j hj := (hq.edits j hj).elim (fun hj => (inherits_of_mem hj).2) (fun hj => hj.1.2)

theorem Quiet.wf (hq : Quiet epoch d d') (hd : d.Wf epoch) : d'.Wf epoch where
  nextFileId_pos := Nat.lt_of_lt_of_le hd.nextFileId_pos hq.nextFileId
  jobs j hj := by
    rcases hq.edits j hj with hj | ⟨_, hj⟩
    · exact (hd.jobs j hj).of_le hq.nextFileId
    · exact hj
  writing w hw := by
    rw [hq.current]
    exact hd.writing w (hq.writing ▸ hw)
  persisted := by
    rw [hq.persisted, hd.persisted, writtenVersion, writtenVersion, hq.current, hq.writing]

section

variable (hd : d.Wf epoch)

include hd

/-- A flush begins with an id of its own. -/
theorem quiet_startFlush : Quiet epoch d
      { d.allocate epoch with jobs := { allocated := [d.versions.nextFileId] } :: d.jobs } := by
  refine { nextFileId := Nat.le_succ _, edits := edits_of_jobs rfl (fun _ => id) (forall_mem_cons.2
    ⟨.inr ⟨⟨nofun, ?_⟩, ?_, nofun, nofun⟩, fun _ => .inl⟩) }
  · exact forall_mem_singleton.2 (.inl le_rfl)
  · exact forall_mem_singleton.2 ⟨hd.nextFileId_pos, Nat.lt_succ_self _⟩

omit hd in
/-- A compaction begins with files of the current version. -/
theorem quiet_startCompaction {inputs : List (Level × FileMetaData κ)}
    (hinputs : inputs ⊆ d.versions.current.files) :
    Quiet epoch d
      { d with
        jobs := { inputVersion := some d.versions.current, inputs := inputs } :: d.jobs } := by
  refine { edits := edits_of_jobs rfl (fun _ => id) (forall_mem_cons.2
    ⟨.inr ⟨⟨?_, nofun⟩, nofun, ?_, nofun⟩, fun _ => .inl⟩) }
  · rintro v ⟨⟩
    exact mem_liveVersions.2 (.inl rfl)
  · exact fun f hf => ⟨_, rfl, Version.mem_handles.2 ⟨f, hinputs hf, rfl⟩⟩

/-! ## Steps of the manifest write -/

/-- A step whose edits were alive before. -/
theorem Wf.of_edits (hnext : d'.versions.nextFileId = d.versions.nextFileId)
    (hcurrent : d'.versions.current = d.versions.current ∨
      ∃ w, d.writing = some w ∧ d'.versions.current = w.manifest.version)
    (hreaders : d'.readers = d.readers)
    (hpersisted : d'.persisted = d.persisted ∨
      ∃ w, d.writing = some w ∧ d'.persisted = w.manifest.version)
    (hedits : ∀ i ∈ d'.liveEdits, i ∈ d.liveEdits)
    (hwriting : ∀ w, d'.writing = some w → ∀ h ∈ w.manifest.version.handles,
      h ∈ d'.versions.current.handles ∨ CanAdd epoch w.job h)
    (hwritten : d'.persisted = d'.writtenVersion) : Effect d d' ∧ d'.Wf epoch :=
  have hle := Nat.le_of_eq hnext.symm
  ⟨⟨hle, hcurrent, fun _ hv => mem_liveVersions.2 (.inr (.inl (hreaders ▸ hv))), hpersisted,
    fun i hi => (inherits_of_mem (hedits i hi)).1, fun i hi => (inherits_of_mem (hedits i hi)).2⟩,
    hnext ▸ hd.nextFileId_pos, fun i hi => (hd.jobs i (hedits i hi)).of_le hle, hwriting, hwritten⟩

/-- The manifest is persisted before its version is installed. -/
theorem Wf.manifestWritten (hw : d.writing = some w) (hd' : d' = { d with
      writing := some { w with persisted := true }, persisted := w.manifest.version }) :
    Effect d d' ∧ d'.Wf epoch := by
  subst hd'
  refine hd.of_edits rfl (.inl rfl) rfl (.inr ⟨w, hw, rfl⟩) (fun i hi => ?_) ?_ rfl
  · refine mem_liveEdits.2 ((mem_liveEdits.1 hi).imp_right (.imp_left ?_))
    rintro ⟨w', ⟨⟩, rfl⟩
    exact ⟨w, hw, rfl⟩
  · rintro w' ⟨⟩
    exact hd.writing w hw

/-- A manifest that was not written leaves all as it was. -/
theorem Wf.manifestFailed (hw : d.writing = some w) (hp : ¬ w.persisted) :
    Effect d { d with writing := none } ∧ Wf epoch { d with writing := none } := by
  refine hd.of_edits rfl (.inl rfl) rfl (.inl rfl) (fun i hi => ?_) nofun ?_
  · refine mem_liveEdits.2 ((mem_liveEdits.1 hi).imp_right (.imp_left ?_))
    rintro ⟨w, ⟨⟩, _⟩
  · -- the write that failed has not taken effect
    rw [hd.persisted, writtenVersion, hw]
    exact if_neg hp

/-- The version of the manifest becomes the current one. -/
theorem Wf.install (hw : d.writing = some w) (hp : w.persisted) :
    Effect d (d.install w) ∧ Wf epoch (d.install w) := by
  refine hd.of_edits rfl (.inr ⟨w, hw, rfl⟩) rfl (.inl rfl) (fun i hi => ?_)
    nofun ?_
  · rcases mem_liveEdits.1 hi with hi | ⟨w, ⟨⟩, _⟩ | hi
    · exact mem_liveEdits.2 (.inl hi)
    · by_cases hinput : w.job.inputVersion = none
      · rw [Database.install, if_pos hinput] at hi
        exact mem_liveEdits.2 (.inr (.inr hi))
      · rw [Database.install, if_neg hinput] at hi
        rcases mem_cons.1 hi with rfl | hi
        · exact mem_liveEdits.2 (.inr (.inl ⟨w, hw, rfl⟩))
        · exact mem_liveEdits.2 (.inr (.inr hi))
  · change d.persisted = w.manifest.version
    rw [hd.persisted, writtenVersion, hw]
    exact if_pos hp

variable [DecidableEq κ]

/-- One edit at a time is written to a manifest. -/
theorem Wf.logAndApply {m : Manifest κ} (hj : j ∈ d.jobs)
    (hwriting : d.writing = none) (he : j.edit = some e)
    (hm : d.versions.manifest epoch e = some m)
    (hd' : d' = { d with
      jobs := d.jobs.erase j, writing := some { job := j, manifest := m } }) :
    Effect d d' ∧ d'.Wf epoch := by
  subst hd'
  refine hd.of_edits rfl (.inl rfl) rfl (.inl rfl) (fun i hi => ?_) ?_ ?_
  · rcases mem_liveEdits.1 hi with hi | ⟨w, ⟨⟩, rfl⟩ | hi
    · exact mem_liveEdits.2 (.inl (mem_of_mem_erase hi))
    · exact mem_liveEdits.2 (.inl hj)
    · exact mem_liveEdits.2 (.inr (.inr hi))
  · rintro w ⟨⟩ h hh
    rw [VersionSet.manifest_version hm] at hh
    rcases Version.mem_handles_apply hh with hh | ⟨f, hf, rfl⟩
    · exact .inl hh
    · exact .inr ((hd.jobs j (mem_liveEdits.2 (.inl hj))).added e he f hf)
  · rw [hd.persisted, writtenVersion, hwriting]
    rfl

/-! ## Steps of the jobs -/

/-- A job completes its edit. -/
theorem quiet_of_edit (hj : j ∈ d.jobs) (he : ∀ f ∈ e.addedFiles, CanAdd epoch j f.2.handle) :
    Quiet epoch d (d.setJob j { j with edit := some e }) := by
  have hlive : j ∈ d.liveEdits := mem_liveEdits.2 (.inl hj)
  have hwf := hd.jobs j hlive
  refine { edits := edits_of_jobs rfl (fun _ => id) (forall_mem_cons.2
    ⟨.inr ⟨⟨(inherits_of_mem hlive).1, (inherits_of_mem hlive).2⟩, hwf.allocated_lt, hwf.inputs, ?_⟩,
      fun _ hi => .inl (mem_of_mem_erase hi)⟩) }
  rintro e' ⟨⟩
  exact he

theorem quiet_allocateId (hj : j ∈ d.jobs) (hedit : j.edit = none) :
    Quiet epoch d ((d.allocate epoch).setJob j
      { j with allocated := d.versions.nextFileId :: j.allocated }) := by
  have hlive : j ∈ d.liveEdits := mem_liveEdits.2 (.inl hj)
  have hwf := hd.jobs j hlive
  refine { nextFileId := Nat.le_succ _, edits := edits_of_jobs rfl (fun _ => id) (forall_mem_cons.2
    ⟨.inr ⟨⟨(inherits_of_mem hlive).1, ?_⟩, ?_, hwf.inputs, fun e he => ?_⟩,
      fun _ hi => .inl (mem_of_mem_erase hi)⟩) }
  · exact forall_mem_cons.2 ⟨.inl le_rfl, fun id hid => .inr ⟨j, hlive, hid⟩⟩
  · exact forall_mem_cons.2 ⟨⟨hd.nextFileId_pos, Nat.lt_succ_self _⟩, fun id hid =>
      ⟨(hwf.allocated_lt id hid).1, Nat.lt_succ_of_lt (hwf.allocated_lt id hid).2⟩⟩
  · -- an edit that still allocates ids is not complete
    exact absurd (hedit.symm.trans he) (Option.some_ne_none e).symm

end

variable [DecidableEq κ]

/-- The collector takes down what it finds collectible. -/
theorem gcList_eq_some (hnext : d.next epoch delay (.gcList h) = some d') :
    ∃ msg now, d.processing = some (msg, now) ∧ msg.Collects epoch h ∧
      d' = { d with pendingDeletes := (h, now + delay) :: d.pendingDeletes } := by
  rw [next] at hnext
  rcases hp : d.processing with _ | ⟨msg, now⟩
  · simp [hp] at hnext
  · rw [hp] at hnext
    obtain ⟨⟨_, hcollects, _⟩, hnext⟩ := ite_none_right_eq_some.1 hnext
    exact ⟨msg, now, rfl, hcollects, (Option.some.inj hnext).symm⟩

/-- Only what was taken down is removed. -/
theorem gcRemove_eq_some {deadline : Nat}
    (hnext : d.next epoch delay (.gcRemove h deadline) = some d') :
    (h, deadline) ∈ d.pendingDeletes ∧
      d' = { d with
        storage := d.storage.filter (· ≠ h)
        pendingDeletes := d.pendingDeletes.erase (h, deadline) } := by
  rw [next] at hnext
  rcases hp : d.processing with _ | ⟨msg, now⟩
  · simp [hp] at hnext
  · rw [hp] at hnext
    obtain ⟨⟨hmem, _⟩, hnext⟩ := ite_none_right_eq_some.1 hnext
    exact ⟨hmem, (Option.some.inj hnext).symm⟩

/-- Where the messages, the message worked on and the deadlines come from. -/
structure GcEffect (epoch : Nat) (d d' : Database κ) : Prop where
  mailbox : ∀ msg ∈ d'.mailbox, msg ∈ d.mailbox ∨ msg = d.gcMessage := by exact fun _ => .inl
  processing : ∀ msg now, d'.processing = some (msg, now) →
    d.processing = some (msg, now) ∨ msg ∈ d.mailbox := by exact fun _ _ => .inl
  pendingDeletes : ∀ h deadline, (h, deadline) ∈ d'.pendingDeletes →
    (h, deadline) ∈ d.pendingDeletes ∨
      ∃ msg now, d.processing = some (msg, now) ∧ msg.Collects epoch h := by
    exact fun _ _ => .inl

/-- What a step does to the references and to the collector, and that it keeps what holds of the
    references. -/
theorem effect_of_next (hd : d.Wf epoch) (hnext : d.next epoch delay a = some d') :
    (Effect d d' ∧ d'.Wf epoch) ∧ GcEffect epoch d d' := by
  have hquiet : Quiet epoch d d' → GcEffect epoch d d' →
      (Effect d d' ∧ d'.Wf epoch) ∧ GcEffect epoch d d' := fun hq hgc =>
    ⟨⟨hq.effect, hq.wf hd⟩, hgc⟩
  cases a with
  | startFlush =>
    cases hnext
    exact hquiet (quiet_startFlush hd) {}
  | startCompaction inputs =>
    obtain ⟨hinputs, rfl⟩ := ite_some_none_eq_some.1 hnext
    exact hquiet (quiet_startCompaction hinputs) {}
  | allocateId j =>
    obtain ⟨⟨hj, _, hedit⟩, rfl⟩ := ite_some_none_eq_some.1 hnext
    exact hquiet (quiet_allocateId hd hj hedit) {}
  | finishFlush j level f lastSeqno =>
    obtain ⟨⟨hj, _, _, hf⟩, rfl⟩ := ite_some_none_eq_some.1 hnext
    refine hquiet (quiet_of_edit hd hj fun g hg => .inl ?_) {}
    rw [mem_singleton.1 hg]
    exact hf
  | finishCompaction j outputs =>
    obtain ⟨⟨hj, _, _, houtputs⟩, rfl⟩ := ite_some_none_eq_some.1 hnext
    exact hquiet (quiet_of_edit hd hj fun g hg => .inl (houtputs g hg)) {}
  | moveFile j =>
    obtain ⟨⟨hj, _, _⟩, hnext⟩ := ite_none_right_eq_some.1 hnext
    obtain ⟨e, he, rfl⟩ := Option.map_eq_some_iff.1 hnext
    refine hquiet (quiet_of_edit hd hj fun g hg => .inr ?_) {}
    -- the file that is moved is one of the input version
    obtain ⟨f, hf, hfg⟩ := Job.mem_inputs_of_moveEdit he hg
    rw [← hfg]
    exact (hd.jobs j (mem_liveEdits.2 (.inl hj))).inputs f hf
  | fail j =>
    obtain ⟨_, rfl⟩ := ite_some_none_eq_some.1 hnext
    exact hquiet
      { edits := edits_of_jobs rfl (fun _ => id) fun _ hi => .inl (mem_of_mem_erase hi) } {}
  | logAndApply j =>
    obtain ⟨⟨hj, hwriting⟩, hnext⟩ := ite_none_right_eq_some.1 hnext
    obtain ⟨e, he, hnext⟩ := bind_eq_some_iff.1 hnext
    obtain ⟨m, hm, hnext⟩ := bind_eq_some_iff.1 hnext
    cases hnext
    exact ⟨hd.logAndApply hj hwriting he hm rfl, {}⟩
  | manifestWritten =>
    obtain ⟨w, hw, hnext⟩ := bind_eq_some_iff.1 hnext
    obtain ⟨_, hnext⟩ := Option.ite_none_left_eq_some.1 hnext
    cases hnext
    exact ⟨hd.manifestWritten hw rfl, {}⟩
  | manifestFailed =>
    obtain ⟨w, hw, hnext⟩ := bind_eq_some_iff.1 hnext
    obtain ⟨hp, hnext⟩ := Option.ite_none_left_eq_some.1 hnext
    cases hnext
    exact ⟨hd.manifestFailed hw hp, {}⟩
  | setCurrent =>
    obtain ⟨w, hw, hnext⟩ := bind_eq_some_iff.1 hnext
    obtain ⟨hp, rfl⟩ := ite_some_none_eq_some.1 hnext
    exact ⟨hd.install hw hp, {}⟩
  | tellGc j =>
    obtain ⟨_, rfl⟩ := ite_some_none_eq_some.1 hnext
    exact hquiet { edits := edits_of_jobs rfl (fun _ => mem_of_mem_erase) fun _ => .inl }
      { mailbox := fun _ hmsg => (mem_cons.1 hmsg).symm }
  | acquire =>
    cases hnext
    exact hquiet { readers := fun _ hv => mem_liveVersions.2 ((mem_cons.1 hv).imp_right .inl) } {}
  | release v =>
    cases hnext
    exact hquiet { readers := fun _ hv => mem_liveVersions.2 (.inr (.inl (mem_of_mem_erase hv))) } {}
  | tick =>
    cases hnext
    exact hquiet {} {}
  | gcStart msg =>
    obtain ⟨⟨hmsg, _⟩, rfl⟩ := ite_some_none_eq_some.1 hnext
    refine hquiet {} { processing := ?_ }
    rintro _ _ ⟨⟩
    exact .inr hmsg
  | gcList h =>
    obtain ⟨msg, now, hp, hcollects, rfl⟩ := gcList_eq_some hnext
    refine hquiet {} { pendingDeletes := fun g deadline hg => ?_ }
    rcases mem_cons.1 hg with hg | hg
    · obtain ⟨rfl, _⟩ := Prod.mk.inj hg
      exact .inr ⟨msg, now, hp, hcollects⟩
    · exact .inl hg
  | gcRemove h deadline =>
    obtain ⟨_, rfl⟩ := gcRemove_eq_some hnext
    exact hquiet {} { pendingDeletes := fun _ _ h => .inl (mem_of_mem_erase h) }
  | gcEnd =>
    cases hnext
    exact hquiet {} { processing := nofun }

/-! ## The garbage collector -/

theorem lt_foldl_min {l : List Nat} {m n : Nat} : m < l.foldl min n ↔ m < n ∧ ∀ k ∈ l, m < k := by
  induction l generalizing n with
  | nil => simp
  | cons k l ih => rw [foldl_cons, ih, Nat.lt_min, forall_mem_cons, and_assoc]

omit [DecidableEq κ] in
/-- Ids below are neither new nor those of an edit that lives. -/
theorem lt_minUncommittedFileId {m : Nat} :
    m < d.minUncommittedFileId ↔
      m < d.versions.nextFileId ∧ ∀ j ∈ d.liveEdits, ∀ id ∈ j.allocated, m < id := by
  rw [minUncommittedFileId, lt_foldl_min]
  refine and_congr_right fun _ => ⟨fun h j hj id hid => ?_, fun h id hid => ?_⟩
  · exact h id (mem_flatMap.2 ⟨j, hj, hid⟩)
  · obtain ⟨j, hj, hid⟩ := mem_flatMap.1 hid
    exact h j hj id hid

omit [DecidableEq κ] in
/-- Every file that is referenced is live, or has an id that an edit has allocated. -/
theorem Wf.live_or_allocated (hd : d.Wf epoch) (hh : d.Referenced epoch h) :
    h ∈ d.getLiveFiles ∨ h.epoch = epoch ∧ ∃ j ∈ d.liveEdits, h.id ∈ j.allocated := by
  have hcurrent : h ∈ d.versions.current.handles → h ∈ d.getLiveFiles := fun hh =>
    mem_flatMap.2 ⟨_, mem_liveVersions.2 (.inl rfl), hh⟩
  rcases hh with ⟨v, hv, hh⟩ | hh | hh
  · exact .inl (mem_flatMap.2 ⟨v, hv, hh⟩)
  · exact .inr hh
  · rw [hd.persisted] at hh
    rcases d.writtenVersion_eq with hcur | ⟨w, hw, hwritten⟩
    · exact .inl (hcurrent (hcur ▸ hh))
    · -- the manifest that is not installed yet
      have hj : w.job ∈ d.liveEdits := mem_liveEdits.2 (.inr (.inl ⟨w, hw, rfl⟩))
      rcases hd.writing w hw h (hwritten ▸ hh) with hh | ⟨hepoch, hid⟩ | ⟨v, hv, hh⟩
      · exact .inl (hcurrent hh)
      · exact .inr ⟨hepoch, w.job, hj, hid⟩
      · exact .inl (mem_flatMap.2
          ⟨v, mem_liveVersions.2 (.inr (.inr ⟨w.job, hj, hv⟩)), hh⟩)

omit [DecidableEq κ] in
/-- A message is only sent about files that are forgotten. -/
theorem Wf.forgotten_of_gcMessage (hd : d.Wf epoch) (hh : d.gcMessage.Collects epoch h) :
    d.Forgotten epoch h := by
  obtain ⟨hlive, _, hid⟩ := hh
  have hpos : 0 < d.minUncommittedFileId :=
    lt_minUncommittedFileId.2 ⟨hd.nextFileId_pos, fun j hj id hid =>
      ((hd.jobs j hj).allocated_lt id hid).1⟩
  have hlt : h.epoch = epoch → h.id < d.minUncommittedFileId := fun hepoch =>
    Nat.lt_of_le_sub_one hpos (hid hepoch)
  refine ⟨fun href => ?_, fun hepoch => (lt_minUncommittedFileId.1 (hlt hepoch)).1⟩
  rcases hd.live_or_allocated href with href | ⟨hepoch, j, hj, hid⟩
  · exact hlive href
  · exact Nat.lt_irrefl _ ((lt_minUncommittedFileId.1 (hlt hepoch)).2 j hj h.id hid)

/-- A step keeps the collector to forgotten files. -/
theorem gcSafe_of_next (hd : d.Wf epoch) (hs : d.GcSafe epoch)
    (hnext : d.next epoch delay a = some d') : d'.GcSafe epoch := by
  have hforgotten : ∀ {h}, d.Forgotten epoch h → d'.Forgotten epoch h :=
    (effect_of_next hd hnext).1.1.forgotten hd
  have hgc := (effect_of_next hd hnext).2
  refine ⟨fun msg hmsg h hh => hforgotten ?_, fun msg now hp h hh => hforgotten ?_,
    fun h deadline hh => hforgotten ?_⟩
  · rcases hgc.mailbox msg hmsg with hmsg | rfl
    · exact hs.mailbox msg hmsg h hh
    · exact hd.forgotten_of_gcMessage hh
  · rcases hgc.processing msg now hp with hp | hmsg
    · exact hs.processing msg now hp h hh
    · exact hs.mailbox msg hmsg h hh
  · rcases hgc.pendingDeletes h deadline hh with hh | ⟨msg, now, hp, hcollects⟩
    · exact hs.pendingDeletes h deadline hh
    · exact hs.processing msg now hp h hcollects

/-- A step adds the files whose ids it allocates to the storage, and only removes files that are
    due for removal. -/
theorem storage_of_next (hnext : d.next epoch delay a = some d') :
    (∀ h ∈ d.storage, h ∈ d'.storage ∨ ∃ deadline, (h, deadline) ∈ d.pendingDeletes) ∧
      ∀ id, d.versions.nextFileId ≤ id → id < d'.versions.nextFileId →
        ⟨id, epoch⟩ ∈ d'.storage := by
  cases a with
  | gcRemove h deadline =>
    obtain ⟨hmem, rfl⟩ := gcRemove_eq_some hnext
    grind
  | logAndApply j =>
    obtain ⟨_, hnext⟩ := ite_none_right_eq_some.1 hnext
    obtain ⟨_, _, hnext⟩ := bind_eq_some_iff.1 hnext
    grind [bind_eq_some_iff]
  | _ =>
    grind [next, allocate, setJob, install, VersionSet.setCurrent, bind_eq_some_iff,
      Option.map_eq_some_iff]

end Steps

/-! ## Runs -/

/-- The database right after it is opened with the version set `s`, with any files in storage. -/
def opened (s : VersionSet κ) (storage : List FileHandle) : Database κ where
  versions := s
  persisted := s.current
  storage := storage

variable {storage : List FileHandle} {s : VersionSet κ}

theorem wf_opened {epoch : Nat} (hs : 0 < s.nextFileId) : (opened s storage).Wf epoch :=
  ⟨hs, nofun, nofun, rfl⟩

theorem gcSafe_opened {epoch : Nat} : (opened s storage).GcSafe epoch :=
  ⟨nofun, nofun, nofun⟩

variable [DecidableEq κ]

/-- A step of a database. -/
def Step (epoch delay : Nat) (d : Database κ) (a : DatabaseAction κ) (d' : Database κ) : Prop :=
  d.next epoch delay a = some d'

/-- The garbage collector removes no file that is in use: when it removes a file, no live version,
    no edit under way and not the persisted manifest refers to it, and none ever does later. -/
theorem not_referenced_of_gcRemove {epoch delay : Nat}
    {d d' d'' : Database κ} {l l' : List (DatabaseAction κ)}
    {h : FileHandle} {deadline : Nat} (hs : 0 < s.nextFileId)
    (hrun : Run (Step epoch delay) (opened s storage) l d)
    (hremove : d.next epoch delay (.gcRemove h deadline) = some d')
    (hrun' : Run (Step epoch delay) d' l' d'') :
    ¬ d.Referenced epoch h ∧ ¬ d''.Referenced epoch h := by
  have hinv : d.Wf epoch ∧ d.GcSafe epoch :=
    hrun.invariant (P := fun d => d.Wf epoch ∧ d.GcSafe epoch)
      (fun hd hnext => ⟨(effect_of_next hd.1 hnext).1.2, gcSafe_of_next hd.1 hd.2 hnext⟩)
      ⟨wf_opened hs, gcSafe_opened⟩
  have hforgotten : d.Forgotten epoch h :=
    hinv.2.pendingDeletes h deadline (gcRemove_eq_some hremove).1
  obtain ⟨⟨heffect, hwf⟩, -⟩ := effect_of_next hinv.1 hremove
  have hlater : d''.Wf epoch ∧ d''.Forgotten epoch h :=
    hrun'.invariant (P := fun d => d.Wf epoch ∧ d.Forgotten epoch h)
      (fun hd hnext => ⟨(effect_of_next hd.1 hnext).1.2,
        (effect_of_next hd.1 hnext).1.1.forgotten hd.1 hd.2⟩)
      ⟨hwf, heffect.forgotten hinv.1 hforgotten⟩
  exact ⟨hforgotten.not_referenced, hlater.2.not_referenced⟩

/-- Two files of level 0, written by a database of epoch 1. -/
def twoFiles : VersionSet Nat where
  current := ⟨[(0, ⟨⟨2, 1⟩, 0, 5⟩), (0, ⟨⟨3, 1⟩, 3, 9⟩)]⟩
  nextFileId := 4
  lastSeqno := some 7

/-- The compaction of the two files, before and after its output is complete. -/
def mergeJob : Job Nat where
  inputVersion := some twoFiles.current
  inputs := twoFiles.current.files
  allocated := [4]

def mergedJob : Job Nat :=
  { mergeJob with
    edit := some
      { removedFiles := [(0, ⟨2, 1⟩), (0, ⟨3, 1⟩)]
        addedFiles := [(1, ⟨⟨4, 1⟩, 0, 9⟩)] } }

/-- The move of the output of `mergeJob` to level 2. -/
def moveJob : Job Nat where
  inputVersion := some ⟨[(1, ⟨⟨4, 1⟩, 0, 9⟩)]⟩
  inputs := [(1, ⟨⟨4, 1⟩, 0, 9⟩)]

def movedJob : Job Nat :=
  { moveJob with
    edit := some
      { removedFiles := [(1, ⟨4, 1⟩)], addedFiles := [(2, ⟨⟨4, 1⟩, 0, 9⟩)] } }

/-- Two compactions, after which the inputs of the first one are due for removal. -/
def collectRun : List (DatabaseAction Nat) :=
  [.startCompaction twoFiles.current.files, .allocateId { mergeJob with allocated := [] },
    .finishCompaction mergeJob [(1, ⟨⟨4, 1⟩, 0, 9⟩)], .logAndApply mergedJob, .manifestWritten,
    .setCurrent, .tellGc mergedJob, .startCompaction [(1, ⟨⟨4, 1⟩, 0, 9⟩)], .moveFile moveJob,
    .logAndApply movedJob, .manifestWritten, .setCurrent, .tellGc movedJob,
    .gcStart ⟨[⟨4, 1⟩, ⟨4, 1⟩], 4⟩, .gcList ⟨2, 1⟩, .gcEnd, .tick,
    .gcStart ⟨[⟨4, 1⟩, ⟨4, 1⟩], 4⟩]

/-- The database in which the first input is removed. -/
def collectDatabase : Database Nat :=
  { opened { twoFiles with current := ⟨[(2, ⟨⟨4, 1⟩, 0, 9⟩)]⟩, nextFileId := 5 }
      [⟨4, 1⟩, ⟨2, 1⟩, ⟨3, 1⟩] with
    clock := 1
    mailbox := [⟨[⟨4, 1⟩, ⟨4, 1⟩], 4⟩, ⟨[⟨4, 1⟩, ⟨2, 1⟩, ⟨3, 1⟩], 3⟩]
    processing := some (⟨[⟨4, 1⟩, ⟨4, 1⟩], 4⟩, 1)
    pendingDeletes := [(⟨2, 1⟩, 1)] }

/-- The database after the removal. -/
def collectedDatabase : Database Nat :=
  { collectDatabase with storage := [⟨4, 1⟩, ⟨3, 1⟩], pendingDeletes := [] }

theorem not_referenced_of_gcRemove_collectRun :
    ¬ collectDatabase.Referenced 1 ⟨2, 1⟩ ∧ ¬ collectedDatabase.Referenced 1 ⟨2, 1⟩ := by
  have hrun : collectRun.foldlM (next 1 1) (opened twoFiles [⟨2, 1⟩, ⟨3, 1⟩]) =
      some collectDatabase := by
    decide
  have hremove : collectDatabase.next 1 1 (.gcRemove ⟨2, 1⟩ 1) = some collectedDatabase := by
    decide
  exact not_referenced_of_gcRemove (by decide) (Run.of_foldlM hrun) hremove (.nil _)

/-- No file that is in use is missing: if those of the version that is opened are in storage, then
    so are those of every live version and of the persisted manifest, at any time. -/
theorem mem_storage_of_run {epoch delay : Nat} {d : Database κ} {l : List (DatabaseAction κ)}
    {h : FileHandle} (hs : 0 < s.nextFileId) (hstorage : ∀ h ∈ s.current.handles, h ∈ storage)
    (hrun : Run (Step epoch delay) (opened s storage) l d)
    (hh : (∃ v ∈ d.liveVersions, h ∈ v.handles) ∨ h ∈ d.persisted.handles) : h ∈ d.storage := by
  refine (hrun.invariant (P := fun d => d.Wf epoch ∧ d.GcSafe epoch ∧
    ∀ h, d.Referenced epoch h → h ∈ d.storage) (fun {d a d'} hd hnext => ?_)
    ⟨wf_opened hs, gcSafe_opened, fun h hh => hstorage h ?_⟩).2.2 h (hh.imp_right .inr)
  · obtain ⟨hwf, hgc, hstored⟩ := hd
    obtain ⟨⟨heffect, hwf'⟩, -⟩ := effect_of_next hwf hnext
    obtain ⟨hkept, hwritten⟩ := storage_of_next hnext
    refine ⟨hwf', gcSafe_of_next hwf hgc hnext, fun h hh => ?_⟩
    rcases heffect.referenced hwf hh with hh | ⟨rfl, hid, j, hj, hmem⟩
    · rcases hkept h (hstored h hh) with hmem | ⟨deadline, hmem⟩
      · exact hmem
      · exact absurd hh (hgc.pendingDeletes h deadline hmem).not_referenced
    · exact hwritten h.id hid ((hwf'.jobs j hj).allocated_lt _ hmem).2
  · simpa [Referenced, liveVersions, liveEdits, opened] using hh

theorem mem_storage_of_run_collectRun :
    ⟨4, 1⟩ ∈ collectDatabase.persisted.handles ∧ ⟨4, 1⟩ ∈ collectDatabase.storage := by
  have hrun : collectRun.foldlM (next 1 1) (opened twoFiles [⟨2, 1⟩, ⟨3, 1⟩]) =
      some collectDatabase := by
    decide
  have hmem : ⟨4, 1⟩ ∈ collectDatabase.persisted.handles := by decide
  exact ⟨hmem, mem_storage_of_run (by decide) (by decide) (Run.of_foldlM hrun) (.inr hmem)⟩

end Database

end Redpanda.Lsm
