import Redpanda.CloudStorage.PartitionManifest

/-!
# Segments that can be added safely

Before segments are added to a manifest they are checked by `safe_segment_meta_to_add`, which
says how many of a list, from the first one on, can be added. The check simulates how the segments
extend the log, but looks up re-uploads in the manifest as it was before any of the list is added.
Two re-uploads can then be found safe of which the second one cuts what the first one puts into the
manifest (`exists_safe_not_contiguous`).

Apart from that the check is right: whenever the segments found safe cut no segment of the manifest
they are added to (`AddsWhole`), the log stays without gaps and overlaps and keeps all its offsets,
and not otherwise (`contiguous_iff_addsWhole`). The induction over the list is carried by
`Checked`, that the simulated end of the log is the real one.
-/

namespace Redpanda.CloudStorage

open Model Lib List

namespace PartitionManifest

variable (p : PartitionManifest)

/-- Each segment begins after the one before it. Segments hold at least one offset, and there are
    no offsets below zero. -/
def Contiguous : Prop :=
  ∃ start stop, 0 ≤ start ∧
    Consecutive SegmentMeta.baseOffset SegmentMeta.committedOffset start p.segments stop

/-- Some segment has the offset. -/
def Covers (o : Int) : Prop :=
  ∃ s ∈ p.segments, s.baseOffset ≤ o ∧ o ≤ s.committedOffset

/-- Adding segments one after the other. -/
def addAll (l : List SegmentMeta) : PartitionManifest :=
  l.foldl add p

/-- The segment is already there, or it cuts none of the segments; if there are none, it has to
    be well-formed itself. -/
def AddsWhole (m : SegmentMeta) : Prop :=
  p.Refuses m ∨
    (p.segments = [] → 0 ≤ m.baseOffset ∧ m.baseOffset ≤ m.committedOffset) ∧
      ∀ s ∈ p.segments, ¬ Cuts SegmentMeta.baseOffset SegmentMeta.committedOffset m s

variable {p : PartitionManifest} {m : SegmentMeta} {rest : List SegmentMeta} {o : Int}

theorem Contiguous.separated (h : p.Contiguous) :
    Separated SegmentMeta.baseOffset SegmentMeta.committedOffset p.segments :=
  let ⟨_, _, _, h⟩ := h
  h.separated

theorem segments_add (h : ¬ p.Refuses m) :
    (p.add m).segments =
      insertCovering SegmentMeta.baseOffset SegmentMeta.committedOffset m p.segments := by
  rw [add_of_not_refuses h]

theorem segments_add_of_refuses (h : p.Refuses m) : (p.add m).segments = p.segments := by
  obtain ⟨moved, heq⟩ := add_of_refuses h
  rw [heq]

/-- Adding a segment keeps the offsets of the manifest. -/
theorem covers_add (h : p.Covers o) : (p.add m).Covers o := by
  by_cases hm : p.Refuses m
  · rwa [Covers, segments_add_of_refuses hm]
  · rw [Covers, segments_add hm]
    exact exists_mem_insertCovering h

theorem covers_addAll {l : List SegmentMeta} (h : p.Covers o) : (p.addAll l).Covers o := by
  induction l generalizing p with
  | nil => exact h
  | cons m l ih => exact ih (covers_add h)

/-- A segment after which the log is contiguous cuts no other one. -/
theorem addsWhole_of_contiguous_add (h : (p.add m).Contiguous) : p.AddsWhole m := by
  by_cases hm : p.Refuses m
  · exact .inl hm
  · obtain ⟨start, stop, hstart, hadd⟩ := h
    rw [segments_add hm] at hadd
    refine .inr ⟨fun hnil => ?_, hadd.separated.not_cuts⟩
    rw [hnil] at hadd
    obtain ⟨rfl, hle, -⟩ := hadd
    exact ⟨hstart, hle⟩

/-! ## The check -/

theorem find_eq_some {s : SegmentMeta}
    (h : p.find o = some (s, rest)) : s.baseOffset = o ∧ (s :: rest) <:+ p.segments := by
  rw [find] at h
  split at h
  · rename_i s' rest' heq
    split_ifs at h with hbase
    obtain ⟨rfl, rfl⟩ := Prod.mk.injEq .. ▸ Option.some.inj h
    exact ⟨hbase, heq ▸ dropWhile_suffix _⟩
  · exact absurd h (Option.some_ne_none _).symm

/-- A re-upload found safe ends with a segment of the manifest. -/
theorem exists_of_safeReupload {s : SegmentMeta}
    (h : p.safeReupload m s rest) : ∃ t ∈ s :: rest, t.committedOffset = m.committedOffset := by
  rw [safeReupload, Bool.and_eq_true] at h
  have h := h.2
  split_ifs at h with hcommitted
  · exact ⟨s, mem_cons_self, hcommitted⟩
  · obtain ⟨t, ht, hcommitted⟩ := any_eq_true.1 h
    exact ⟨t, mem_cons_of_mem s ht, by simpa using hcommitted⟩

/-- The manifest `cur`, with some of the segments checked against `p` added, ends where the check
    takes the log to end, and has the offsets of `p`. -/
structure Checked (p : PartitionManifest) (subst : ManifestSubstitute) (cur : PartitionManifest) :
    Prop where
  range : ∃ start stop, 0 ≤ start ∧
    Consecutive SegmentMeta.baseOffset SegmentMeta.committedOffset start cur.segments stop ∧
    (cur.segments = [] ∧ subst.lastSegment = none ∨
      cur.segments ≠ [] ∧ ∃ t, subst.lastSegment = some t ∧ t.committedOffset + 1 = stop)
  covers : ∀ o, p.Covers o → cur.Covers o

namespace Checked

variable {subst subst' : ManifestSubstitute} {cur : PartitionManifest}

theorem contiguous (h : Checked p subst cur) : cur.Contiguous :=
  let ⟨start, stop, hstart, hcur, _⟩ := h.range
  ⟨start, stop, hstart, hcur⟩

/-- The check begins with the manifest itself. -/
theorem self (h : p.Contiguous) : Checked p ⟨p.lastOffset, p.segments.getLast?⟩ p := by
  obtain ⟨start, stop, hstart, hp⟩ := h
  refine ⟨⟨start, stop, hstart, hp, ?_⟩, fun _ => id⟩
  rcases hlast : p.segments.getLast? with _ | t
  · exact .inl ⟨getLast?_eq_none_iff.1 hlast, rfl⟩
  · refine .inr ⟨fun hnil => ?_, t, rfl, hp.last_add_one_eq hlast⟩
    simp [hnil] at hlast

/-- The first segment of an empty manifest. -/
theorem add_first (hcur : cur.segments = []) (hp : p.segments = [])
    (hm : 0 ≤ m.baseOffset ∧ m.baseOffset ≤ m.committedOffset) :
    Checked p ⟨m.committedOffset, some m⟩ (cur.add m) := by
  have hrefuses : ¬ cur.Refuses m := by
    rintro ⟨s, hs, -⟩
    have := mem_of_mem_covered hs
    simp [hcur] at this
  have hadd : (cur.add m).segments = [m] := by
    rw [segments_add hrefuses, hcur]
    rfl
  refine ⟨⟨m.baseOffset, m.committedOffset + 1, hm.1, ?_, .inr ⟨?_, m, rfl, rfl⟩⟩, ?_⟩
  · rw [hadd]
    exact ⟨rfl, hm.2, rfl⟩
  · simp [hadd]
  · rintro o ⟨s, hs, -⟩
    simp [hp] at hs

variable (h : Checked p subst cur)

include h

/-- A segment that touches the log and cuts no segment of it. The log then ends with the segment
    or where it did before. -/
theorem add_touching {start stop : Int} (hstart : 0 ≤ start)
    (hcur : Consecutive SegmentMeta.baseOffset SegmentMeta.committedOffset start cur.segments stop)
    (hrefuses : ¬ cur.Refuses m) (hbase : 0 ≤ m.baseOffset) (hle : m.baseOffset ≤ m.committedOffset)
    (hcut : ∀ s ∈ cur.segments, ¬ Cuts SegmentMeta.baseOffset SegmentMeta.committedOffset m s)
    (hstop : m.baseOffset ≤ stop) (hstart' : start ≤ m.committedOffset + 1)
    (hlast : ∃ t, subst'.lastSegment = some t ∧
      t.committedOffset + 1 = max stop (m.committedOffset + 1)) : Checked p subst' (cur.add m) := by
  refine ⟨⟨min start m.baseOffset, max stop (m.committedOffset + 1), le_min hstart hbase, ?_,
    .inr ⟨?_, hlast⟩⟩, fun o ho => covers_add (h.covers o ho)⟩
  · rw [segments_add hrefuses]
    exact hcur.insertCovering hle hcut hstop hstart'
  · rw [segments_add hrefuses, insertCovering]
    simp

/-- A segment at the end of the log. -/
theorem add_last (hne : cur.segments ≠ []) (hmax : m.committedOffset ≤ Offset.max)
    (hscrub : scrubSegmentMeta m subst.lastSegment = []) (hm : cur.AddsWhole m) :
    Checked p ⟨m.committedOffset, some m⟩ (cur.add m) := by
  obtain ⟨hle, hprev⟩ := of_scrubSegmentMeta_eq_nil hscrub
  obtain ⟨start, stop, hstart, hcur, ⟨hnil, -⟩ | ⟨-, t, ht, hstop⟩⟩ := h.range
  · exact absurd hnil hne
  have hbase := hprev t ht
  have hlt : start < stop := by
    obtain ⟨s, hs⟩ := exists_mem_of_ne_nil _ hne
    have := hcur.start_le_base s hs
    have := hcur.base_le_last s hs
    have := hcur.last_lt_stop s hs
    omega
  -- the offset after the last one, if that is not the largest of all
  have hnext : m.baseOffset = stop ∨
      m.baseOffset = t.committedOffset ∧ t.committedOffset = Offset.max := by
    rw [nextOffset] at hbase
    split_ifs at hbase with hneg hmax <;> omega
  by_cases hrefuses : cur.Refuses m
  · -- only the largest offset can be added twice
    obtain ⟨s, hs, -⟩ := id hrefuses
    have hcovers := covers_of_mem_covered hs
    have := hcur.last_lt_stop s (mem_of_mem_covered hs)
    have := hcur.base_le_last s (mem_of_mem_covered hs)
    refine ⟨⟨start, stop, hstart, ?_, .inr ⟨?_, m, rfl, by omega⟩⟩,
      fun o ho => covers_add (h.covers o ho)⟩ <;> rwa [segments_add_of_refuses hrefuses]
  · obtain ⟨-, hcut⟩ := hm.resolve_left hrefuses
    exact h.add_touching hstart hcur hrefuses (by omega) hle hcut (by omega) (by omega)
      ⟨m, rfl, by omega⟩

/-- A re-upload of segments of the manifest the check looks at. -/
theorem add_reupload (hp : p.Contiguous) {s : SegmentMeta} {rest : List SegmentMeta}
    (hfind : p.find m.baseOffset = some (s, rest)) (hsafe : p.safeReupload m s rest)
    (hm : cur.AddsWhole m) : Checked p subst (cur.add m) := by
  obtain ⟨hbase, hsuffix⟩ := find_eq_some hfind
  obtain ⟨t, ht, hcommitted⟩ := exists_of_safeReupload hsafe
  have hs : s ∈ p.segments := hsuffix.subset mem_cons_self
  have ht' : t ∈ p.segments := hsuffix.subset ht
  have hle_s := hp.separated.base_le_last s hs
  have hle_t := hp.separated.base_le_last t ht'
  have hle : m.baseOffset ≤ m.committedOffset := by
    have hpairwise := (hp.separated.sublist hsuffix.sublist).pairwise
    rcases mem_cons.1 ht with rfl | ht
    · omega
    · have := (pairwise_cons.1 hpairwise).1 t ht
      omega
  -- both ends of the segment are offsets of the log
  obtain ⟨x, hx, hxbase⟩ := h.covers m.baseOffset ⟨s, hs, by omega, by omega⟩
  obtain ⟨y, hy, hybase⟩ := h.covers m.committedOffset ⟨t, ht', by omega, by omega⟩
  obtain ⟨start, stop, hstart, hcur, ⟨hnil, -⟩ | ⟨hne, u, hu, hstop⟩⟩ := h.range
  · simp [hnil] at hx
  by_cases hrefuses : cur.Refuses m
  · refine ⟨⟨start, stop, hstart, ?_, .inr ⟨?_, u, hu, hstop⟩⟩,
      fun o ho => covers_add (h.covers o ho)⟩ <;> rwa [segments_add_of_refuses hrefuses]
  · obtain ⟨-, hcut⟩ := hm.resolve_left hrefuses
    have := hcur.start_le_base x hx
    have := hcur.last_lt_stop x hx
    have := hcur.last_lt_stop y hy
    exact h.add_touching hstart hcur hrefuses (by omega) hle hcut (by omega) (by omega)
      ⟨u, hu, by omega⟩

/-- Adding a segment that is found safe and cuts none. -/
theorem add (hp : p.Contiguous) (hmax : m.committedOffset ≤ Offset.max)
    (hcheck : p.checkSegment subst m = some subst') (hm : cur.AddsWhole m) :
    Checked p subst' (cur.add m) := by
  have hnil : cur.segments = [] → p.segments = [] ∧ subst.lastSegment = none := fun hnil => by
    obtain ⟨-, -, -, -, ⟨-, hlast⟩ | ⟨hne, -⟩⟩ := h.range
    · refine ⟨eq_nil_iff_forall_not_mem.2 fun s hs => ?_, hlast⟩
      obtain ⟨t, ht, -⟩ := h.covers s.baseOffset ⟨s, hs, le_rfl, hp.separated.base_le_last s hs⟩
      simp [hnil] at ht
    · exact absurd hnil hne
  rw [checkSegment] at hcheck
  by_cases hempty : p.segments = [] ∧ subst.lastSegment = none
  · rw [if_pos hempty] at hcheck
    obtain ⟨-, rfl⟩ := Option.ite_some_none_eq_some.1 hcheck
    have hcur : cur.segments = [] := by
      obtain ⟨-, -, -, -, ⟨hcur, -⟩ | ⟨-, t, ht, -⟩⟩ := h.range
      · exact hcur
      · exact absurd (hempty.2.symm.trans ht) (Option.some_ne_none t).symm
    refine add_first hcur hempty.1 ?_
    rcases hm with ⟨s, hs, -⟩ | ⟨hm, -⟩
    · have := mem_of_mem_covered hs
      simp [hcur] at this
    · exact hm hcur
  · rw [if_neg hempty] at hcheck
    rcases hfind : p.find m.baseOffset with _ | ⟨s, rest⟩
    · rw [hfind] at hcheck
      obtain ⟨hscrub, rfl⟩ := Option.ite_some_none_eq_some.1 hcheck
      exact h.add_last (fun h => hempty (hnil h)) hmax hscrub hm
    · rw [hfind] at hcheck
      obtain ⟨hsafe, rfl⟩ := Option.ite_some_none_eq_some.1 hcheck
      exact h.add_reupload hp hfind hsafe hm

/-- Adding the segments found safe, one after the other. -/
theorem contiguous_addAll (hp : p.Contiguous) {l : List SegmentMeta}
    (hl : ∀ m ∈ l, m.committedOffset ≤ Offset.max)
    (hwhole : ∀ j m, j < p.checkSegments subst l → l[j]? = some m →
      (cur.addAll (l.take j)).AddsWhole m) :
    ∀ j ≤ p.checkSegments subst l, (cur.addAll (l.take j)).Contiguous := by
  induction l generalizing subst cur with
  | nil =>
    intro j _
    rw [take_nil]
    exact h.contiguous
  | cons m l ih =>
    rw [forall_mem_cons] at hl
    rw [checkSegments] at hwhole ⊢
    rcases hcheck : p.checkSegment subst m with _ | subst'
    · intro j hj
      simp only at hj
      rw [Nat.le_zero.1 hj]
      exact h.contiguous
    · simp only [hcheck] at hwhole ⊢
      have hadd := h.add hp hl.1 hcheck (hwhole 0 m (Nat.succ_pos _) rfl)
      intro j hj
      rcases j with _ | j
      · exact h.contiguous
      · refine ih hadd hl.2 (fun j m' hj hm' => ?_) j (Nat.le_of_succ_le_succ hj)
        exact hwhole (j + 1) m' (Nat.succ_lt_succ hj) hm'

end Checked

/-- The segments found safe leave the manifest contiguous, without overlaps and with all its
    offsets after each of them, exactly if none of them cuts a segment of the manifest it is added
    to. -/
theorem contiguous_iff_addsWhole (p : PartitionManifest) (hp : p.Contiguous)
    (l : List SegmentMeta) (hl : ∀ m ∈ l, m.committedOffset ≤ Offset.max) :
    (∀ j ≤ p.safeSegmentMetaToAdd l, (p.addAll (l.take j)).Contiguous ∧
        (p.addAll (l.take j)).segments.Pairwise (·.committedOffset < ·.baseOffset) ∧
        ∀ o, p.Covers o → (p.addAll (l.take j)).Covers o) ↔
      ∀ j m, j < p.safeSegmentMetaToAdd l → l[j]? = some m →
        (p.addAll (l.take j)).AddsWhole m := by
  constructor
  · intro h j m hj hm
    have hadd := (h (j + 1) hj).1
    rw [take_add_one, hm, addAll, Option.toList_some, foldl_append] at hadd
    exact addsWhole_of_contiguous_add hadd
  · intro h j hj
    have hcontiguous := (Checked.self hp).contiguous_addAll hp hl h j hj
    exact ⟨hcontiguous, hcontiguous.separated.pairwise, fun o ho => covers_addAll ho⟩

/-- A segment of the first term, with the latest format of its name. -/
def segmentOf (base committed : Int) (size : Nat) : SegmentMeta where
  sizeBytes := size
  baseOffset := base
  committedOffset := committed
  deltaOffset := 0
  deltaOffsetEnd := 0
  segmentTerm := 1
  snameFormat := .v3

/-- The manifest of a log with two segments. -/
def twoSegments : PartitionManifest := addAll {} [segmentOf 0 9 100, segmentOf 10 19 100]

theorem contiguous_twoSegments : twoSegments.Contiguous :=
  ⟨0, 20, le_rfl, rfl, by decide, rfl, by decide, rfl⟩

/-- A re-upload of a segment, then one of both of them, and a new segment. -/
def threeUploads : List SegmentMeta :=
  [segmentOf 10 19 50, segmentOf 0 19 150, segmentOf 20 29 100]

theorem contiguous_iff_addsWhole_threeUploads :
    twoSegments.safeSegmentMetaToAdd threeUploads = 3 ∧
      ∀ j ≤ 3, (twoSegments.addAll (threeUploads.take j)).Contiguous := by
  have hsafe : twoSegments.safeSegmentMetaToAdd threeUploads = 3 := by decide
  have h := contiguous_iff_addsWhole twoSegments contiguous_twoSegments threeUploads (by decide)
  rw [hsafe] at h
  refine ⟨hsafe, fun j hj => (h.2 (fun j m hj hm => ?_) j hj).1⟩
  have hwhole : ∀ j < 3, ∀ m ∈ threeUploads[j]?.toList,
      (twoSegments.addAll (threeUploads.take j)).segments ≠ [] ∧
        ∀ s ∈ (twoSegments.addAll (threeUploads.take j)).segments,
          ¬ Cuts SegmentMeta.baseOffset SegmentMeta.committedOffset m s := by decide
  obtain ⟨hne, hcut⟩ := hwhole j hj m (by simp [hm])
  exact .inr ⟨fun hnil => absurd hnil hne, hcut⟩

/-- A re-upload of both segments and one of the second: each is safe for the manifest, but the
    second one is then inside the first. -/
theorem exists_safe_not_contiguous :
    twoSegments.Contiguous ∧
      twoSegments.safeSegmentMetaToAdd [segmentOf 0 19 150, segmentOf 10 19 50] = 2 ∧
      (twoSegments.addAll [segmentOf 0 19 150, segmentOf 10 19 50]).segments =
        [segmentOf 0 19 150, segmentOf 10 19 50] ∧
      ¬ (twoSegments.addAll [segmentOf 0 19 150, segmentOf 10 19 50]).Contiguous := by
  have hsegments : (twoSegments.addAll [segmentOf 0 19 150, segmentOf 10 19 50]).segments =
      [segmentOf 0 19 150, segmentOf 10 19 50] := by decide
  refine ⟨contiguous_twoSegments, by decide, hsegments, fun h => ?_⟩
  have hpairwise := h.separated.pairwise
  rw [hsegments] at hpairwise
  exact absurd hpairwise (by decide)

end PartitionManifest

end Redpanda.CloudStorage
