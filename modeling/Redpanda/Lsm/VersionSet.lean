import Mathlib

/-!
# Versions of the LSM tree

A *version* (`Version`) lists the data files of every level of the tree. Flushes and
compactions describe what they change by an edit (`VersionEdit`), and the version set applies
an edit to its current version (`Version.apply`), writes the outcome as a manifest
(`VersionSet.manifest`) and installs it once it is written (`VersionSet.setCurrent`).

The type `κ` is that of the keys. The sizes of the files, their range of sequence numbers, the
compaction scores and pointers decide which compaction is picked, not what an edit does, and are
left out.

* `Version.mem_handles_apply`: a file of the version after an edit was there before, or is
  added by the edit.
-/

namespace Redpanda.Lsm

/-- `internal::file_handle`: the id of a data file, and the epoch of the database that
    wrote it. -/
structure FileHandle where
  id : Nat
  epoch : Nat
  deriving DecidableEq

/-- `file_meta_data`. -/
structure FileMetaData (κ : Type*) where
  handle : FileHandle
  smallest : κ
  largest : κ
  deriving DecidableEq

/-- `internal::level`. -/
abbrev Level := Nat

/-- `version`: the files of all levels. -/
structure Version (κ : Type*) where
  files : List (Level × FileMetaData κ) := []
  deriving DecidableEq

/-- `version_edit`. -/
structure VersionEdit (κ : Type*) where
  removedFiles : List (Level × FileHandle) := []
  addedFiles : List (Level × FileMetaData κ) := []
  lastSeqno : Option Nat := none
  deriving DecidableEq

/-- `version_set::manifest`. -/
structure Manifest (κ : Type*) where
  version : Version κ
  nextFileId : Nat
  lastSeqno : Nat
  epoch : Nat
  deriving DecidableEq

/-- `version_set`: the current version, the next file id and the last sequence number. The first
    file id of an empty database is 2. -/
structure VersionSet (κ : Type*) where
  current : Version κ := {}
  nextFileId : Nat := 2
  lastSeqno : Option Nat := none
  deriving DecidableEq

variable {κ : Type*}

namespace VersionEdit

/-- Whether the builder drops a file of the base version: the edit removes it from its level, and
    does not add it there again. -/
def Drops (e : VersionEdit κ) (f : Level × FileMetaData κ) : Prop :=
  (f.1, f.2.handle) ∈ e.removedFiles ∧
    (f.1, f.2.handle) ∉ e.addedFiles.map fun g => (g.1, g.2.handle)
  deriving Decidable

end VersionEdit

namespace Version

/-- The handles of the files of a version. -/
def handles (v : Version κ) : List FileHandle :=
  v.files.map fun f => f.2.handle

/-- `version_set::builder`: the version after the edit `e`. -/
def apply (v : Version κ) (e : VersionEdit κ) : Version κ :=
  ⟨v.files.filter (fun f => ¬ e.Drops f) ++ e.addedFiles⟩

theorem mem_handles {v : Version κ} {h : FileHandle} :
    h ∈ v.handles ↔ ∃ f ∈ v.files, f.2.handle = h :=
  List.mem_map

theorem mem_handles_apply {v : Version κ} {e : VersionEdit κ} {h : FileHandle}
    (hh : h ∈ (v.apply e).handles) :
    h ∈ v.handles ∨ ∃ f ∈ e.addedFiles, f.2.handle = h := by
  obtain ⟨f, hf, rfl⟩ := mem_handles.1 hh
  rcases List.mem_append.1 hf with hf | hf
  · exact .inl (mem_handles.2 ⟨f, (List.mem_filter.1 hf).1, rfl⟩)
  · exact .inr ⟨f, hf, rfl⟩

end Version

namespace VersionSet

variable (s : VersionSet κ)

/-- `updated_seqno` of `log_and_apply`: the later of the last sequence numbers of the version set
    and of the edit. -/
def updatedSeqno (e : VersionEdit κ) : Option Nat :=
  match s.lastSeqno, e.lastSeqno with
  | some m, some n => some (max m n)
  | some m, none => some m
  | none, n => n

/-- The manifest that `log_and_apply` writes for the edit `e`. There is none if no data was ever
    written, where the source reads an empty optional. -/
def manifest (epoch : Nat) (e : VersionEdit κ) : Option (Manifest κ) :=
  (s.updatedSeqno e).map fun seqno =>
    { version := s.current.apply e
      nextFileId := s.nextFileId
      lastSeqno := seqno
      epoch := epoch }

/-- The end of `log_and_apply`: install the version of the manifest that was written. -/
def setCurrent (m : Manifest κ) : VersionSet κ :=
  { s with current := m.version, lastSeqno := some m.lastSeqno }

theorem manifest_version {s : VersionSet κ} {epoch : Nat} {e : VersionEdit κ} {m : Manifest κ}
    (hm : s.manifest epoch e = some m) : m.version = s.current.apply e := by
  obtain ⟨_, _, rfl⟩ := Option.map_eq_some_iff.1 hm
  rfl

end VersionSet

end Redpanda.Lsm
