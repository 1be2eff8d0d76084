import Redpanda.Lib.BinarySearch
import Redpanda.LevelOne.CompactionInfo

/-!
# Terms of the in-memory metastore

A partition keeps where its terms start (`term_starts`), and `simple_metastore` looks up the term
of an offset there. When the start of the log moves, the loop that removes terms takes them from
the first one on until there is one left, and does not get beyond a term that does not start
below the new start of the log.

* `SetStartOffsetUpdate.removeTerms_eq_ok`: if the loop returns, then all terms but the last one
  started below the new start of the log, and only the last one is left.
* `SetStartOffsetUpdate.apply_eq_ok_iff`: the update returns if it does after some number of rounds.
* `SetStartOffsetUpdate.keepsTerms_iff`: it returns and the offsets that are left keep their terms,
  exactly under the condition `SetStartOffsetUpdate.KeepsTerms`.
-/

namespace Redpanda.LevelOne

open Lib Model List

/-- `simple_metastore::get_term_for_offset`. -/
def State.getTermForOffset (s : State) (tp : TopicIdPartition) (requestedO : Int) :
    Except MetastoreErrc Int := do
  let p ← s.getPartition tp
  let terms := p.termStarts.rows
  if terms = [] then .error .missingNtp
  else if p.nextOffset < requestedO then .error .outOfRange
  else
    let firstGt := Lib.lowerBound (·.startOffset < nextOffset requestedO) terms
    match (terms.take firstGt).getLast? with
    | none => .error .outOfRange
    | some lastLe => .ok lastLe.termId

/-- There is nothing to do, or: all terms but the last one start below the new start of the log,
    the objects of the extents that are removed are there, and the last term has begun at the new
    start of the log, unless it is the only one. -/
def SetStartOffsetUpdate.KeepsTerms (u : SetStartOffsetUpdate) (s : State) : Prop :=
  u.newStartOffset ≤ (s.partition u.tp).startOffset ∨
    (∀ t ∈ (s.partition u.tp).termStarts.rows.dropLast, t.startOffset < u.newStartOffset) ∧
    (∀ e ∈ (s.partition u.tp).extents.rows.takeWhile (·.lastOffset < u.newStartOffset),
      e.oid ∈ s.objects) ∧
    ((s.partition u.tp).termStarts.rows.dropLast = [] ∨
      ∀ t ∈ (s.partition u.tp).termStarts.rows.getLast?, t.startOffset < nextOffset u.newStartOffset)
  deriving Decidable

namespace State

variable {s s' : State} {tp : TopicIdPartition} {p p' : PartitionState} {o : Int}

/-- The term of an offset is the last one that has begun there. -/
theorem getTermForOffset_eq (hp : s.partitionState tp = some p) (ho : o ≤ p.nextOffset)
    (begun later : List TermStart) (hrows : p.termStarts.rows = begun ++ later)
    (hne : begun ++ later ≠ []) (hbegun : ∀ t ∈ begun, t.startOffset < nextOffset o)
    (hlater : ∀ t ∈ later, ¬ t.startOffset < nextOffset o) :
    s.getTermForOffset tp o = begun.getLast?.elim (.error .outOfRange) (.ok ·.termId) := by
  have hbound := lowerBound_append (p := fun t : TermStart => t.startOffset < nextOffset o)
    (fun t ht => decide_eq_true (hbegun t ht)) fun t ht => by simpa using hlater t ht
  simp only [getTermForOffset, getPartition, hp, bind, Except.bind, hrows, hbound, if_neg hne,
    take_left, if_neg ho.not_gt]
  rcases begun.getLast? with - | t <;> rfl

/-- If only the last term is left, an offset keeps its term exactly if there was no other one, or
    if the last one has begun there. -/
theorem getTermForOffset_eq_iff {terms : List TermStart} {last : TermStart}
    (hp : s.partitionState tp = some p) (hrows : p.termStarts.rows = terms ++ [last])
    (ho : o ≤ p.nextOffset) (hterms : ∀ t ∈ terms, t.startOffset < nextOffset o)
    (hp' : s'.partitionState tp = some p') (hrows' : p'.termStarts.rows = [last])
    (ho' : o ≤ p'.nextOffset) :
    s'.getTermForOffset tp o = s.getTermForOffset tp o ↔
      terms = [] ∨ last.startOffset < nextOffset o := by
  by_cases hlast : last.startOffset < nextOffset o
  · rw [getTermForOffset_eq hp ho (terms ++ [last]) [] (by simpa using hrows) (by simp)
        (by simpa [or_imp, forall_and] using ⟨hterms, hlast⟩) (by simp),
      getTermForOffset_eq hp' ho' [last] [] hrows' (by simp) (by simpa using hlast) (by simp),
      getLast?_concat, getLast?_singleton]
    exact iff_of_true rfl (.inr hlast)
  · -- before the update, the term of the offset is the last one of the others
    rw [getTermForOffset_eq hp ho terms [last] hrows (by simp) hterms (by simpa using hlast),
      getTermForOffset_eq hp' ho' [] [last] hrows' (by simp) (by simp) (by simpa using hlast)]
    rcases terms.eq_nil_or_concat with rfl | ⟨terms, t, rfl⟩
    · simp
    · simp [hlast]

/-- Without terms there is none to be found. -/
theorem getTermForOffset_of_nil (hp : s.partitionState tp = some p)
    (hrows : p.termStarts.rows = []) : s.getTermForOffset tp o = .error .missingNtp := by
  simp [getTermForOffset, getPartition, hp, bind, Except.bind, hrows]

end State

namespace SetStartOffsetUpdate

variable {u : SetStartOffsetUpdate} {s s' : State} {n : Int} {rounds rounds' : Nat}
  {terms terms' : BtreeSet TermStart}

/-! ## The loop that removes terms -/

/-- If the loop returns, however many rounds it took, then all terms but the last one started below
    the new start of the log, and the last one is left. -/
theorem removeTerms_eq_ok (h : removeTerms n rounds terms = .ok terms') :
    (∀ t ∈ terms.rows.dropLast, t.startOffset < n) ∧
      terms'.rows = terms.rows.getLast?.toList := by
  induction rounds generalizing terms with
  | zero =>
    rw [removeTerms] at h
    rcases hrows : terms.rows with - | ⟨t, - | ⟨t', rest⟩⟩ <;> simp only [hrows] at h
    · obtain rfl := Except.ok.inj h
      simp [hrows]
    · obtain rfl := Except.ok.inj h
      simp [hrows]
    · cases h
  | succ rounds ih =>
    rw [removeTerms] at h
    rcases hrows : terms.rows with - | ⟨t, - | ⟨t', rest⟩⟩ <;> simp only [hrows] at h
    · obtain rfl := Except.ok.inj h
      simp [hrows]
    · obtain rfl := Except.ok.inj h
      simp [hrows]
    · split_ifs at h with hlt
      · have htail : terms.tail.rows = t' :: rest := congrArg List.tail hrows
        obtain ⟨hterms, hlast⟩ := ih h
        rw [htail] at hterms hlast
        rw [dropLast_cons₂, forall_mem_cons, getLast?_cons_cons]
        exact ⟨⟨hlt, hterms⟩, hlast⟩
      · -- the loop cannot have returned from the term that is not below the start of the log
        obtain ⟨hterms, -⟩ := ih h
        rw [hrows, dropLast_cons₂] at hterms
        exact absurd (hterms t mem_cons_self) hlt

/-- If they do, it returns after as many rounds as there are terms. -/
theorem exists_removeTerms_eq_ok (hrounds : terms.rows.length ≤ rounds)
    (h : ∀ t ∈ terms.rows.dropLast, t.startOffset < n) :
    ∃ terms', removeTerms n rounds terms = .ok terms' := by
  induction rounds generalizing terms with
  | zero =>
    have hrows : terms.rows = [] := length_eq_zero_iff.1 (Nat.le_zero.1 hrounds)
    exact ⟨_, by rw [removeTerms, hrows]⟩
  | succ rounds ih =>
    rw [removeTerms]
    rcases hrows : terms.rows with - | ⟨t, - | ⟨t', rest⟩⟩
    · exact ⟨_, rfl⟩
    · exact ⟨_, rfl⟩
    · have htail : terms.tail.rows = t' :: rest := congrArg List.tail hrows
      rw [hrows, dropLast_cons₂, forall_mem_cons] at h
      rw [hrows, length_cons] at hrounds
      simp only [if_pos h.1]
      exact ih (by rw [htail]; omega) (by rw [htail]; exact h.2)

/-- More rounds do not change what the loop returns. -/
theorem removeTerms_of_le (h : removeTerms n rounds terms = .ok terms')
    (hrounds : terms.rows.length ≤ rounds') : removeTerms n rounds' terms = .ok terms' := by
  obtain ⟨hterms, hrows⟩ := removeTerms_eq_ok h
  obtain ⟨terms'', h''⟩ := exists_removeTerms_eq_ok hrounds hterms
  rw [h'', OrderedStore.ext ((removeTerms_eq_ok h'').2.trans hrows.symm)]

/-! ## The update -/

/-- What an update does that moves the start of the log, if it returns. -/
theorem applyWithin_eq_ok_iff (hok : u.canApply s = .ok false) :
    u.applyWithin rounds s = .ok s' ↔ ∃ x termStarts,
      State.removeExtents u.newStartOffset rounds (s.partition u.tp).extents s.objects = .ok x ∧
      removeTerms u.newStartOffset rounds (s.partition u.tp).termStarts = .ok termStarts ∧
      s' = { partitions := s.partitions.insert u.tp { s.partition u.tp with
               extents := x.1
               startOffset := u.newStartOffset
               termStarts
               compactionState := (s.partition u.tp).compactionState.map
                 (·.truncateWithNewStartOffset u.newStartOffset) }
             objects := x.2 } := by
  rw [applyWithin, hok]
  simp only [bind, Except.bind, State.removeExtentsBelowStartOffset, State.setPartition,
    State.partition_insert_self, Bool.false_eq_true, if_false]
  rcases State.removeExtents u.newStartOffset rounds (s.partition u.tp).extents s.objects
    with e | x
  · simp
  · simp only [pure, Except.pure, State.partition_insert_self]
    rcases removeTerms u.newStartOffset rounds (s.partition u.tp).termStarts with e | termStarts
    · simp
    · simp [AList.insert_insert, eq_comm]

/-- The number of rounds that `apply` has is enough. -/
theorem apply_eq_ok_iff {noOp : Bool} (hok : u.canApply s = .ok noOp) :
    u.apply s = .ok s' ↔ ∃ rounds, u.applyWithin rounds s = .ok s' := by
  refine ⟨fun h => ⟨_, h⟩, fun ⟨rounds, h⟩ => ?_⟩
  cases noOp with
  | false =>
    obtain ⟨x, termStarts, hx, hterms, rfl⟩ := (applyWithin_eq_ok_iff hok).1 h
    exact (applyWithin_eq_ok_iff hok).2 ⟨x, termStarts,
      State.removeExtents_of_le hx (Nat.le_add_right _ _),
      removeTerms_of_le hterms (Nat.le_add_left _ _), rfl⟩
  | true =>
    rw [applyWithin, hok] at h
    rw [apply, applyWithin, hok]
    exact h

/-- An update that moves the start of the log returns exactly if its loops do. -/
theorem exists_applyWithin_iff (hok : u.canApply s = .ok false) :
    (∃ rounds s', u.applyWithin rounds s = .ok s') ↔
      (∀ t ∈ (s.partition u.tp).termStarts.rows.dropLast, t.startOffset < u.newStartOffset) ∧
      ∀ e ∈ (s.partition u.tp).extents.rows.takeWhile (·.lastOffset < u.newStartOffset),
        e.oid ∈ s.objects := by
  constructor
  · rintro ⟨rounds, s', h⟩
    obtain ⟨x, termStarts, hx, hterms, -⟩ := (applyWithin_eq_ok_iff hok).1 h
    exact ⟨(removeTerms_eq_ok hterms).1, (State.removeExtents_eq_ok hx).1⟩
  · rintro ⟨hterms, hobjects⟩
    have hle := Nat.le_add_right (s.partition u.tp).extents.rows.length
      (s.partition u.tp).termStarts.rows.length
    obtain ⟨x, hx⟩ := State.removeExtents_of_mem hle hobjects
    obtain ⟨termStarts, hterms⟩ := exists_removeTerms_eq_ok (Nat.le_add_left _ _) hterms
    exact ⟨_, _, (applyWithin_eq_ok_iff hok).2 ⟨x, termStarts, hx, hterms, rfl⟩⟩

/-- The partition after an update that moves the start of the log. -/
theorem exists_partitionState_of_applyWithin (hok : u.canApply s = .ok false)
    (h : u.applyWithin rounds s = .ok s') :
    ∃ p', s'.partitionState u.tp = some p' ∧ p'.nextOffset = (s.partition u.tp).nextOffset ∧
      p'.termStarts.rows = (s.partition u.tp).termStarts.rows.getLast?.toList := by
  obtain ⟨x, termStarts, -, hterms, rfl⟩ := (applyWithin_eq_ok_iff hok).1 h
  exact ⟨_, AList.lookup_insert _, rfl, (removeTerms_eq_ok hterms).2⟩

/-- The offsets that are left keep their terms exactly if the new start of the log does: all terms
    but the last one start below it. -/
theorem forall_getTermForOffset_iff {p p' : PartitionState} (hp : s.partitionState u.tp = some p)
    (hle : u.newStartOffset ≤ p.nextOffset)
    (hterms : ∀ t ∈ p.termStarts.rows.dropLast, t.startOffset < u.newStartOffset)
    (hp' : s'.partitionState u.tp = some p') (hnext : p'.nextOffset = p.nextOffset)
    (hrows' : p'.termStarts.rows = p.termStarts.rows.getLast?.toList) :
    (∀ o, u.newStartOffset ≤ o → o ≤ p.nextOffset →
        s'.getTermForOffset u.tp o = s.getTermForOffset u.tp o) ↔
      p.termStarts.rows.dropLast = [] ∨
        ∀ t ∈ p.termStarts.rows.getLast?, t.startOffset < nextOffset u.newStartOffset := by
  rcases p.termStarts.rows.eq_nil_or_concat with hnil | ⟨terms, last, hrows⟩
  · rw [hnil] at hrows'
    refine iff_of_true (fun o _ _ => ?_) (.inl (by rw [hnil]; rfl))
    rw [State.getTermForOffset_of_nil hp hnil, State.getTermForOffset_of_nil hp' hrows']
  · rw [concat_eq_append] at hrows
    rw [hrows, getLast?_concat] at hrows'
    rw [hrows, dropLast_concat] at hterms
    have hiff : ∀ o, u.newStartOffset ≤ o → o ≤ p.nextOffset →
        (s'.getTermForOffset u.tp o = s.getTermForOffset u.tp o ↔
          terms = [] ∨ last.startOffset < nextOffset o) := fun o hn ho =>
      State.getTermForOffset_eq_iff hp hrows ho
        (fun t ht => (hterms t ht).trans_le (hn.trans (le_nextOffset o))) hp' hrows' (hnext ▸ ho)
    simp only [hrows, dropLast_concat, getLast?_concat, Option.mem_def, Option.some_inj, forall_eq']
    -- the new start of the log is the first of the offsets that are left
    refine ⟨fun h => (hiff _ le_rfl hle).1 (h _ le_rfl hle), fun h o hn ho => ?_⟩
    exact (hiff o hn ho).2 (h.imp_right fun hlast => hlast.trans_le (nextOffset_mono hn))

/-- Moving the start of a log ends and the offsets that are left keep their terms, exactly if
    the condition holds. -/
theorem keepsTerms_iff (u : SetStartOffsetUpdate) (s : State) {noOp : Bool}
    (hok : u.canApply s = .ok noOp) :
    (∃ rounds s', u.applyWithin rounds s = .ok s' ∧
        ∀ o, u.newStartOffset ≤ o → o ≤ (s.partition u.tp).nextOffset →
          s'.getTermForOffset u.tp o = s.getTermForOffset u.tp o) ↔ u.KeepsTerms s := by
  rcases hp : s.partitionState u.tp with - | p
  · simp [canApply, hp] at hok
  have hpart : s.partition u.tp = p := by rw [State.partition, hp]; rfl
  have haccepted := hok
  simp only [canApply, hp] at haccepted
  obtain ⟨hle, hnoOp⟩ := Except.ite_error_eq_ok.1 haccepted
  have hnoOp : decide (u.newStartOffset ≤ p.startOffset) = noOp := Except.ok.inj hnoOp
  rw [KeepsTerms, hpart]
  cases noOp with
  | true =>
    -- nothing is done if the start is not moved
    refine iff_of_true ⟨0, s, ?_, fun _ _ _ => rfl⟩ (.inl (of_decide_eq_true hnoOp))
    rw [applyWithin, hok]
    rfl
  | false =>
    rw [or_iff_right (of_decide_eq_false hnoOp)]
    -- that the loops end is a part of the condition
    have hends := exists_applyWithin_iff hok
    rw [hpart] at hends
    constructor
    · rintro ⟨rounds, s', hs', hkeeps⟩
      obtain ⟨hterms, hobjects⟩ := hends.1 ⟨rounds, s', hs'⟩
      obtain ⟨p', hp', hnext, hrows'⟩ := exists_partitionState_of_applyWithin hok hs'
      rw [hpart] at hnext hrows'
      exact ⟨hterms, hobjects,
        (forall_getTermForOffset_iff hp (not_lt.1 hle) hterms hp' hnext hrows').1 hkeeps⟩
    · rintro ⟨hterms, hobjects, hlast⟩
      obtain ⟨rounds, s', hs'⟩ := hends.2 ⟨hterms, hobjects⟩
      obtain ⟨p', hp', hnext, hrows'⟩ := exists_partitionState_of_applyWithin hok hs'
      rw [hpart] at hnext hrows'
      exact ⟨rounds, s', hs',
        (forall_getTermForOffset_iff hp (not_lt.1 hle) hterms hp' hnext hrows').2 hlast⟩

/-- Three terms of a partition. -/
def threeTerms : List StmUpdate :=
  [.preregisterObjects [1] 0, .addObjects ⟨[State.objectOf 1 ⟨0, 0⟩ 0 29 10],
      AList.singleton ⟨0, 0⟩ [⟨0, 0⟩, ⟨1, 10⟩, ⟨2, 20⟩]⟩ 0]

/-- The start of the log moves into the last of three terms. -/
theorem exists_run_keepsTerms :
    ∃ s, Run State.Step .empty threeTerms s ∧
      ∃ rounds s', applyWithin rounds ⟨⟨0, 0⟩, 25⟩ s = .ok s' ∧
        ∀ o, 25 ≤ o → o ≤ (s.partition ⟨0, 0⟩).nextOffset →
          s'.getTermForOffset ⟨0, 0⟩ o = s.getTermForOffset ⟨0, 0⟩ o := by
  obtain ⟨s, hrun, hs⟩ := State.exists_run (P := fun _ _ => True) (l := threeTerms)
    (f := fun s => ((canApply ⟨⟨0, 0⟩, 25⟩ s).toOption, decide (KeepsTerms ⟨⟨0, 0⟩, 25⟩ s)))
    (show _ = some (some false, true) by decide)
  obtain ⟨hok, hkeeps⟩ := Prod.mk.inj hs
  exact ⟨s, hrun.imp And.right, (keepsTerms_iff ⟨⟨0, 0⟩, 25⟩ s (Except.toOption_eq_some.1 hok)).2
    (of_decide_eq_true hkeeps)⟩

/-- With three terms, a start of the log in the first one leaves the loop with a term that it
    does not remove, and one in the second one removes the term that it is in. -/
theorem exists_run_noReturn :
    ∃ s s', Run State.Step .empty threeTerms s ∧ canApply ⟨⟨0, 0⟩, 5⟩ s = .ok false ∧
      (∀ rounds s'', applyWithin rounds ⟨⟨0, 0⟩, 5⟩ s ≠ .ok s'') ∧
      apply ⟨⟨0, 0⟩, 15⟩ s = .ok s' ∧ s.getTermForOffset ⟨0, 0⟩ 17 = .ok 1 ∧
      s'.getTermForOffset ⟨0, 0⟩ 17 = .error .outOfRange := by
  obtain ⟨s, hrun, hs⟩ := State.exists_run (P := fun _ _ => True) (l := threeTerms)
    (f := fun s => (canApply ⟨⟨0, 0⟩, 5⟩ s, (apply ⟨⟨0, 0⟩, 5⟩ s).toOption.isSome,
      s.getTermForOffset ⟨0, 0⟩ 17,
      (apply ⟨⟨0, 0⟩, 15⟩ s).toOption.map (·.getTermForOffset ⟨0, 0⟩ 17)))
    (show _ = some (.ok false, false, .ok 1, some (.error .outOfRange)) by decide)
  simp only [Prod.mk.injEq, Option.map_eq_some_iff, Except.toOption_eq_some] at hs
  obtain ⟨hok, happly, hterm, s', hs', hterm'⟩ := hs
  refine ⟨s, s', hrun.imp And.right, hok, fun rounds s'' h => ?_, hs', hterm, hterm'⟩
  rw [(apply_eq_ok_iff hok).2 ⟨rounds, h⟩] at happly
  cases happly

end SetStartOffsetUpdate

end Redpanda.LevelOne
