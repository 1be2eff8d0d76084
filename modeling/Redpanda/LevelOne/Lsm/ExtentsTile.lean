import Redpanda.LevelOne.Lsm.Replacement

/-!
# Runs of updates

Whatever updates the LSM metastore accepts, in whatever order, the extents of a
partition tile its log (`Store.extents_tile_log`), as long as requests do not use the
largest offset and the partition -1.

* The largest offset has no next one: `kafka::next_offset` stays at it.
* The rows of the partition -1 come last in the order of the keys, and the partition
  after it is the first one. Its extents are not found when the topic is removed.
-/

namespace Redpanda.LevelOne.Lsm

open Lib Model
open List (forall_mem_flatMap forall_mem_map)
open OrderedStore (empty)

namespace Store

variable {s s' : Store} {t : TopicIdPartition} {m : MetadataRowValue} {updates : List DbUpdate}
  {u : DbUpdate}

/-- Updates of objects alone. -/
def OnlyObjects : DbUpdate → Prop
  | .removeObjects _ | .preregisterObjects .. | .expirePreregisteredObjects .. => True
  | _ => False

theorem key_of_onlyObjects {rows : List WriteBatchRow}
    (hrows : u.buildRows s = .ok rows) (hu : OnlyObjects u) :
    ∀ w ∈ rows, ∃ oid, w.key = .object oid := by
  cases u with
  | removeObjects objects =>
    cases hrows
    exact forall_mem_map.2 fun oid _ => ⟨oid, rfl⟩
  | preregisterObjects ids registeredAt =>
    obtain ⟨_, -, hrows⟩ := Except.bind_eq_ok.1 hrows
    cases hrows
    exact forall_mem_map.2 fun oid _ => ⟨oid, rfl⟩
  | expirePreregisteredObjects ids now =>
    cases hrows
    exact forall_mem_flatMap.2 fun oid _ => forall_mem_map.2 fun _ _ => ⟨oid, rfl⟩
  | _ => exact hu.elim

theorem step_eq_ok (h : s.Step u s') :
    ∃ rows, u.buildRows s = .ok rows ∧ s' = s.applyRows rows := by
  obtain ⟨rows, hrows, rfl⟩ := Option.map_eq_some_iff.1 h
  exact ⟨rows, Except.toOption_eq_some.1 hrows, rfl⟩

/-- Every accepted update keeps the extents in line with the metadata. -/
theorem Inv.step (h : s.Inv) (hrange : u.InRange) (hstep : s.Step u s') : s'.Inv := by
  obtain ⟨rows, hrows, rfl⟩ := step_eq_ok hstep
  cases u with
  | addObjects u now =>
    rcases hbuild : u.buildRows s now with e | result <;>
      rw [DbUpdate.buildRows, hbuild] at hrows
    · cases hrows
    · exact Except.ok.inj hrows ▸ h.addObjects hrange hbuild
  | replaceObjects u now => exact h.replaceObjects hrange hrows
  | setStartOffset u now => exact h.setStartOffset hrows
  | removeTopics topics now => exact h.removeTopics hrows
  | removeObjects | preregisterObjects | expirePreregisteredObjects =>
    refine h.auxiliary fun w hw => ?_
    obtain ⟨oid, hkey⟩ := key_of_onlyObjects hrows trivial w hw
    simp [hkey]

theorem inv_of_run (hrange : ∀ u ∈ updates, u.InRange)
    (h : Run Step empty updates s) : s.Inv :=
  h.invariant_of_labels (P := Inv) (fun hs hu hstep => hs.step hu hstep) hrange inv_empty

/-- In the order of their keys, the extents of a partition follow each other without gaps
    and overlaps, from the start of the log to its end, and the metadata counts them. -/
theorem extents_tile_log (hrange : ∀ u ∈ updates, u.InRange)
    (h : Run Step empty updates s) (hm : s.getMetadata t = some m) :
    (s.extents t).Pairwise (·.lastOffset < ·.baseOffset) ∧
      (s.extents t).IsChain (fun e e' => e'.baseOffset = e.lastOffset + 1) ∧
      (∀ e ∈ (s.extents t).head?, e.baseOffset ≤ m.startOffset ∧ m.startOffset ≤ e.lastOffset) ∧
      (∀ e ∈ (s.extents t).getLast?, e.lastOffset + 1 = m.nextOffset) ∧
      (s.extents t = [] → m.startOffset = m.nextOffset) ∧
      m.size = ((s.extents t).map (·.len)).sum ∧ m.numExtents = (s.extents t).length := by
  have htracks := (inv_of_run hrange h).tracks hm
  obtain ⟨hchain, hhead, hlast, hnil⟩ := htracks.tiles.isChain (s.extents_pairwise t)
  refine ⟨?_, hchain, hhead, hlast, hnil, htracks.size_eq, htracks.numExtents_eq⟩
  refine (s.extents_pairwise t).imp_of_mem fun {e e'} he he' hlt => ?_
  have := htracks.tiles.disjoint e he e' he' fun heq => by simp [heq] at hlt
  have := htracks.tiles.base_le_last e' he'
  omega

/-- What is stored about a partition. -/
def partition (s : Store) (t : TopicIdPartition) : Option MetadataRowValue × List Extent :=
  (s.getMetadata t, s.extents t)

/-- Executing updates is a run. -/
theorem exists_run {l : List DbUpdate} {t : TopicIdPartition}
    {p : Option MetadataRowValue × List Extent}
    (h : (l.foldlM update empty).map (·.partition t) = some p) :
    ∃ s, Run Step empty l s ∧ s.getMetadata t = p.1 ∧ s.extents t = p.2 := by
  obtain ⟨s, hs, rfl⟩ := Option.map_eq_some_iff.1 h
  exact ⟨s, .of_foldlM hs, rfl, rfl⟩

/-- An object with one extent of ten bytes. -/
def objectOf (oid : ObjectId) (t : TopicIdPartition) (baseOffset lastOffset : Int) : NewObject :=
  ⟨oid, 10, 20, AList.singleton t ⟨baseOffset, lastOffset, 0, 0, 10⟩⟩

/-- Two extents are added, the log is cut in the first of them, and this one is replaced. -/
theorem extents_tile_log_replace :
    let t : TopicIdPartition := ⟨0, 0⟩
    let updates : List DbUpdate :=
      [.preregisterObjects [1, 2, 3] 0,
        .addObjects ⟨[objectOf 1 t 0 4, objectOf 2 t 5 9], AList.singleton t [⟨0, 0⟩]⟩ 0,
        .setStartOffset ⟨t, 3⟩ 0,
        .replaceObjects ⟨[objectOf 3 t 0 4], ∅⟩ 0]
    ∃ s m, Run Step empty updates s ∧ s.getMetadata t = some m ∧
      (s.extents t).length = 2 ∧
      (s.extents t).IsChain (fun e e' => e'.baseOffset = e.lastOffset + 1) := by
  intro t updates
  obtain ⟨s, hrun, hm, hextents⟩ := exists_run (l := updates) (t := t)
    (p := (some ⟨3, 10, 0, 20, 2⟩, [⟨0, 4, 0, 0, 10, 3⟩, ⟨5, 9, 0, 0, 10, 2⟩])) (by decide)
  exact ⟨s, _, hrun, hm, hextents ▸ rfl, (extents_tile_log (by decide) hrun hm).2.1⟩

/-- The extents do not tile the log if it ends with the largest offset, or if the partition
    is the one whose extents stay behind when its topic is removed. -/
theorem exists_extents_not_tile_log :
    (let t : TopicIdPartition := ⟨0, 0⟩
      let updates : List DbUpdate :=
        [.preregisterObjects [1] 0,
          .addObjects ⟨[objectOf 1 t 0 Offset.max], AList.singleton t [⟨0, 0⟩]⟩ 0]
      ∃ s m, Run Step empty updates s ∧ s.getMetadata t = some m ∧
        ∃ e ∈ (s.extents t).getLast?, e.lastOffset + 1 ≠ m.nextOffset) ∧
    (let t : TopicIdPartition := ⟨0, -1⟩
      let updates : List DbUpdate :=
        [.preregisterObjects [1, 2, 3] 0,
          .addObjects ⟨[objectOf 1 t 0 4, objectOf 2 t 5 9], AList.singleton t [⟨0, 0⟩]⟩ 0,
          .removeTopics [0] 0,
          .addObjects ⟨[objectOf 3 t 0 9], AList.singleton t [⟨0, 0⟩]⟩ 0]
      ∃ s m, Run Step empty updates s ∧ s.getMetadata t = some m ∧
        ¬ (s.extents t).Pairwise (·.lastOffset < ·.baseOffset)) := by
  refine ⟨?_, ?_⟩
  · intro t updates
    obtain ⟨s, hrun, hm, hextents⟩ := exists_run (l := updates) (t := t)
      (p := (some ⟨0, Offset.max, 0, 10, 1⟩, [⟨0, Offset.max, 0, 0, 10, 1⟩])) (by decide)
    exact ⟨s, _, hrun, hm, ⟨0, Offset.max, 0, 0, 10, 1⟩, by rw [hextents]; rfl, by decide⟩
  · intro t updates
    obtain ⟨s, hrun, hm, hextents⟩ := exists_run (l := updates) (t := t)
      (p := (some ⟨0, 10, 0, 10, 1⟩, [⟨0, 9, 0, 0, 10, 3⟩, ⟨5, 9, 0, 0, 10, 2⟩])) (by decide)
    exact ⟨s, _, hrun, hm, by rw [hextents]; decide⟩

end Store

end Redpanda.LevelOne.Lsm
