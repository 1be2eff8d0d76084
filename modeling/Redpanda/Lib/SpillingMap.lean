import Redpanda.Lib.Pairwise

/-!
# Maps that spill

A map from keys to values that may run out of space. A pair is *offered* to the map: if its key
is there, the better of the two values stays, otherwise the map first makes room by spilling some of
its pairs, in any order, to a list. In the end, all that is left is spilled as well. So the output
may have several pairs of one key, and which ones depends on what was spilled when.

The order of the values is given by `better v w`: the value `w` takes the place of `v`.

* `forall_mem_output`: the output consists of pairs that were offered.
* `mem_output_of_best`: a pair that is better than those of its key before it and not worse than
  those after it is in the output, whatever was spilled.
* `eq_of_mem_output`: the pairs of one key that are offered one right after the other leave at most
  one pair.
* `eq_of_not_spilled`: if nothing is spilled, the output has one pair for each key.
* `output_eq_collapse`: if everything is spilled at each chance, only pairs that are right next to
  each other are merged.
-/

namespace Redpanda.Lib

open List
open AList (insert_empty lookup_erase lookup_insert lookup_insert_ne)

/-- A map with the pairs it has spilled. -/
structure SpillingMap (K V : Type*) where
  live : AList (fun _ : K => V) := ∅
  spilled : List (K × V) := []

namespace SpillingMap

variable {K V : Type*} [DecidableEq K] (better : V → V → Prop) (m : SpillingMap K V)

/-- The entry of a key leaves the map. -/
def spillKey (k : K) : SpillingMap K V :=
  match m.live.lookup k with
  | some v => { live := m.live.erase k, spilled := m.spilled ++ [(k, v)] }
  | none => m

/-- Spill the pairs of the keys `ks`, in this order. -/
def spill (ks : List K) : SpillingMap K V :=
  ks.foldl spillKey m

/-- Offer the pair `x`, spilling the keys `ks` if there has to be room for it. -/
def offer [DecidableRel better] (m : SpillingMap K V) (x : (K × V) × List K) : SpillingMap K V :=
  match m.live.lookup x.1.1 with
  | some v =>
    if better v x.1.2 then { m with live := m.live.insert x.1.1 x.1.2 } else m
  | none =>
    let m := m.spill x.2
    { m with live := m.live.insert x.1.1 x.1.2 }

/-- Entries are offered one by one. -/
def offerAll [DecidableRel better] (m : SpillingMap K V)
    (l : List ((K × V) × List K)) : SpillingMap K V :=
  l.foldl (offer better) m

/-- All that was spilled once the map is empty. The keys `ks` come first. -/
def drain (ks : List K) : List (K × V) :=
  let m := m.spill ks
  (m.spill m.live.keys).spilled

/-- The output for the offers `l`. -/
def output [DecidableRel better] (l : List ((K × V) × List K)) (ks : List K) : List (K × V) :=
  (offerAll better {} l).drain ks

variable {better : V → V → Prop} [DecidableRel better] {m : SpillingMap K V} {k : K}
  {x : K × V} {ks : List K} {l : List ((K × V) × List K)}

theorem offer_of_lookup_eq_none {x : (K × V) × List K} (h : m.live.lookup x.1.1 = none) :
    m.offer better x =
      { live := (m.spill x.2).live.insert x.1.1 x.1.2, spilled := (m.spill x.2).spilled } := by
  rw [offer, h]

variable {v : V} {k' : K}

theorem offer_of_better {x : (K × V) × List K} (h : m.live.lookup x.1.1 = some v)
    (hv : better v x.1.2) : m.offer better x = { m with live := m.live.insert x.1.1 x.1.2 } := by
  rw [offer, h]
  exact if_pos hv

theorem offer_of_not_better {x : (K × V) × List K} (h : m.live.lookup x.1.1 = some v)
    (hv : ¬ better v x.1.2) : m.offer better x = m := by
  rw [offer, h]
  exact if_neg hv

/-! ## What the map holds -/

/-- All pairs of the map, live or spilled, satisfy `P`. -/
structure All (P : K × V → Prop) (m : SpillingMap K V) : Prop where
  live : ∀ k v, m.live.lookup k = some v → P (k, v)
  spilled : ∀ x ∈ m.spilled, P x

/-- The pair `x` is live or spilled. -/
def Holds (m : SpillingMap K V) (x : K × V) : Prop :=
  m.live.lookup x.1 = some x.2 ∨ x ∈ m.spilled

theorem lookup_spillKey_self : (m.spillKey k).live.lookup k = none := by
  rw [spillKey]
  rcases h : m.live.lookup k with _ | v
  · exact h
  · exact lookup_erase k m.live

theorem lookup_spillKey_ne (h : k' ≠ k) : (m.spillKey k).live.lookup k' = m.live.lookup k' := by
  rw [spillKey]
  split
  · exact AList.lookup_erase_ne h
  · rfl

theorem lookup_spillKey_eq_some (h : (m.spillKey k).live.lookup k' = some v) :
    m.live.lookup k' = some v := by
  by_cases hk : k' = k
  · subst hk
    simp [lookup_spillKey_self] at h
  · rwa [lookup_spillKey_ne hk] at h

theorem lookup_spill_eq_some (h : (m.spill ks).live.lookup k' = some v) :
    m.live.lookup k' = some v := by
  induction ks generalizing m with
  | nil => exact h
  | cons k ks ih => exact lookup_spillKey_eq_some (ih h)

/-- What is spilled is not in the map any more. -/
theorem lookup_spill_of_mem (hk : k ∈ ks) : (m.spill ks).live.lookup k = none := by
  induction ks generalizing m with
  | nil => exact nomatch hk
  | cons k' ks ih =>
    rcases mem_cons.1 hk with rfl | hk
    · rcases h : (m.spill (k :: ks)).live.lookup k with _ | v
      · rfl
      · -- what is spilled does not come back
        have hv : ((m.spillKey k).spill ks).live.lookup k = some v := h
        replace hv := lookup_spill_eq_some hv
        simp [lookup_spillKey_self] at hv
    · exact ih hk

variable {P : K × V → Prop} {p s : List (K × V)}

section

variable (h : m.All P)

include h

theorem All.spillKey : (m.spillKey k).All P := by
  refine ⟨fun k' v hv => h.live k' v (lookup_spillKey_eq_some hv), ?_⟩
  rw [SpillingMap.spillKey]
  rcases hk : m.live.lookup k with _ | v
  · exact h.spilled
  · exact forall_mem_concat.2 ⟨h.spilled, h.live k v hk⟩

theorem All.spill : (m.spill ks).All P :=
  foldlRecOn ks _ h fun _ h _ _ => h.spillKey

theorem All.insert (hx : P x) : All P { m with live := m.live.insert x.1 x.2 } := by
  refine ⟨fun k v hv => ?_, h.spilled⟩
  by_cases hk : k = x.1
  · subst hk
    rw [lookup_insert] at hv
    cases hv
    exact hx
  · rw [lookup_insert_ne hk] at hv
    exact h.live k v hv

theorem All.offer {x : (K × V) × List K} (hx : P x.1) : (m.offer better x).All P := by
  rcases hv : m.live.lookup x.1.1 with _ | v
  · rw [offer_of_lookup_eq_none hv]
    exact h.spill.insert hx
  · by_cases hb : better v x.1.2
    · rw [offer_of_better hv hb]
      exact h.insert hx
    · rwa [offer_of_not_better hv hb]

/-- A property of all offered entries holds of all that are held. -/
theorem All.offerAll (hl : ∀ x ∈ l, P x.1) : (m.offerAll better l).All P :=
  foldlRecOn l _ h fun _ h x hx => h.offer (hl x hx)

omit h in
theorem all_empty : All P ({} : SpillingMap K V) :=
  ⟨nofun, nofun⟩

theorem All.forall_mem_drain : ∀ x ∈ m.drain ks, P x :=
  h.spill.spill.spilled

end

/-- The output consists of pairs that were offered. -/
theorem forall_mem_output (hl : ∀ x ∈ l, P x.1) : ∀ x ∈ output better l ks, P x :=
  (all_empty.offerAll hl).forall_mem_drain

/-! ## The best pair of a key -/

section

variable (h : m.Holds x)

include h

theorem Holds.spillKey : (m.spillKey k).Holds x := by
  rcases h with hlive | hspilled
  · by_cases hk : x.1 = k
    · right
      subst hk
      rw [SpillingMap.spillKey, hlive]
      exact mem_concat_self
    · left
      rw [lookup_spillKey_ne hk]
      exact hlive
  · right
    rw [SpillingMap.spillKey]
    split
    · exact mem_append_left _ hspilled
    · exact hspilled

theorem Holds.spill : (m.spill ks).Holds x :=
  foldlRecOn (motive := (Holds · x)) ks _ h fun _ h _ _ => h.spillKey

theorem Holds.insert {y : K × V} (hy : y.1 ≠ x.1) :
    Holds { m with live := m.live.insert y.1 y.2 } x := by
  rcases h with hlive | hspilled
  · left
    rw [lookup_insert_ne (Ne.symm hy)]
    exact hlive
  · exact .inr hspilled

/-- A pair stays in the map as long as no better one comes. -/
theorem Holds.offer {y : (K × V) × List K}
    (hy : y.1.1 = x.1 → ¬ better x.2 y.1.2) : (m.offer better y).Holds x := by
  rcases hv : m.live.lookup y.1.1 with _ | v
  · rw [offer_of_lookup_eq_none hv]
    have hspill : (m.spill y.2).Holds x := h.spill
    rcases hspill with hlive | hspilled
    · -- the pair is live, so `y` has another key
      refine Holds.insert (.inl hlive) fun heq => ?_
      rw [heq, lookup_spill_eq_some hlive] at hv
      exact nomatch hv
    · exact .inr hspilled
  · by_cases hb : better v y.1.2
    · rw [offer_of_better hv hb]
      rcases h with hlive | hspilled
      · refine Holds.insert (.inl hlive) fun heq => hy heq ?_
        rw [heq, hlive] at hv
        rwa [Option.some.inj hv]
      · exact .inr hspilled
    · rwa [offer_of_not_better hv hb]

/-- The best entry of a key is held until the end. -/
theorem Holds.offerAll (hl : ∀ y ∈ l, y.1.1 = x.1 → ¬ better x.2 y.1.2) :
    (m.offerAll better l).Holds x :=
  foldlRecOn (motive := (Holds · x)) l _ h fun _ h y hy => h.offer (hl y hy)

end

/-- A pair that is better than the live one of its key is in the map after its offer. -/
theorem lookup_offer {x : (K × V) × List K}
    (h : ∀ v, m.live.lookup x.1.1 = some v → better v x.1.2) :
    (m.offer better x).live.lookup x.1.1 = some x.1.2 := by
  rcases hv : m.live.lookup x.1.1 with _ | v
  · rw [offer_of_lookup_eq_none hv]
    exact lookup_insert _
  · rw [offer_of_better hv (h v hv)]
    exact lookup_insert _

/-- What is held comes out. -/
theorem Holds.mem_drain (h : m.Holds x) : x ∈ m.drain ks := by
  have hspill : ((m.spill ks).spill (m.spill ks).live.keys).Holds x := h.spill.spill
  rcases hspill with hlive | hspilled
  · -- nothing is live any more
    have hkey : x.1 ∈ (m.spill ks).live.keys := by
      rw [← AList.mem_keys, ← AList.lookup_isSome, lookup_spill_eq_some hlive]
      rfl
    simp [lookup_spill_of_mem hkey] at hlive
  · exact hspilled

theorem offerAll_cons (x : (K × V) × List K) (l : List ((K × V) × List K)) :
    m.offerAll better (x :: l) = (m.offer better x).offerAll better l :=
  rfl

theorem offerAll_append (l l' : List ((K × V) × List K)) :
    m.offerAll better (l ++ l') = (m.offerAll better l).offerAll better l' :=
  foldl_append

/-- A pair that is better than those of its key before it and not worse than those after it is
    in the output. -/
theorem mem_output_of_best (hl : l.map Prod.fst = p ++ x :: s)
    (hp : ∀ y ∈ p, y.1 = x.1 → better y.2 x.2) (hs : ∀ y ∈ s, y.1 = x.1 → ¬ better x.2 y.2) :
    x ∈ output better l ks := by
  obtain ⟨p', s', rfl, rfl, hs'⟩ := map_eq_append_iff.1 hl
  obtain ⟨x', s', rfl, rfl, rfl⟩ := map_eq_cons_iff.1 hs'
  rw [forall_mem_map] at hp hs
  have hall : (offerAll better {} p').All fun y => y.1 = x'.1.1 → better y.2 x'.1.2 :=
    all_empty.offerAll hp
  have hx : ((offerAll better {} p').offer better x').Holds x'.1 :=
    .inl (lookup_offer fun v hv => hall.live _ v hv rfl)
  rw [output, offerAll_append]
  exact (hx.offerAll hs).mem_drain

/-! ## Pairs of one key in a row -/

/-- Once a pair of the key `k` is live, better and better pairs of the key only take its place. -/
theorem offerAll_of_forall_better (hv : m.live.lookup k = some v)
    (hl : ∀ x ∈ l, x.1.1 = k ∧ better v x.1.2) (hbetter : l.Pairwise fun x y => better x.1.2 y.1.2) :
    (m.offerAll better l).spilled = m.spilled ∧
      (m.offerAll better l).live.lookup k = some ((l.getLast?.map fun x => x.1.2).getD v) := by
  induction l generalizing m v with
  | nil => exact ⟨rfl, hv⟩
  | cons x l ih =>
    rw [forall_mem_cons] at hl
    obtain ⟨⟨rfl, hb⟩, hl⟩ := hl
    obtain ⟨hx, hbetter⟩ := pairwise_cons.1 hbetter
    have hoffer := offer_of_better hv hb
    have hlookup : (m.offer better x).live.lookup x.1.1 = some x.1.2 := by
      rw [hoffer]
      exact lookup_insert _
    obtain ⟨hspilled, hlast⟩ := ih hlookup (fun y hy => ⟨(hl y hy).1, hx y hy⟩) hbetter
    refine ⟨?_, ?_⟩
    · rw [offerAll_cons, hspilled, hoffer]
    · rw [offerAll_cons, hlast]
      rcases l with _ | ⟨y, l⟩
      · rfl
      · rw [getLast?_cons_cons, getLast?_eq_some_getLast (cons_ne_nil y l)]
        rfl

/-- After a block of pairs of one key, only the last one of them is in the map. -/
theorem All.offer_block {R : V → Prop} {b : (K × V) × List K} {B : List ((K × V) × List K)}
    (hm : m.All fun y => y.1 = b.1.1 → ¬ R y.2 ∧ better y.2 b.1.2)
    (hB : ∀ x ∈ B, x.1.1 = b.1.1 ∧ better b.1.2 x.1.2)
    (hbetter : B.Pairwise fun x y => better x.1.2 y.1.2) :
    ((m.offer better b).offerAll better B).All fun y =>
      y.1 = b.1.1 → R y.2 → y.2 = (B.getLast?.map fun x => x.1.2).getD b.1.2 := by
  have hb : (m.offer better b).live.lookup b.1.1 = some b.1.2 :=
    lookup_offer fun v hv => (hm.live _ v hv rfl).2
  -- what was spilled before the block, or to make room for it, does not satisfy `R`
  have hspill : ∀ y ∈ (m.offer better b).spilled, y.1 = b.1.1 → ¬ R y.2 := by
    intro y hy hkey
    rcases hv : m.live.lookup b.1.1 with _ | v
    · rw [offer_of_lookup_eq_none hv] at hy
      exact (hm.spill.spilled y hy hkey).1
    · rw [offer_of_better hv (hm.live _ v hv rfl).2] at hy
      exact (hm.spilled y hy hkey).1
  obtain ⟨hspilled, hlookup⟩ := offerAll_of_forall_better hb hB hbetter
  refine ⟨fun k v hv hk _ => ?_, fun y hy hkey hR => ?_⟩
  · have hk : k = b.1.1 := hk
    rw [hk, hlookup] at hv
    exact (Option.some.inj hv).symm
  · rw [hspilled] at hy
    exact absurd hR (hspill y hy hkey)

/-- Of the pairs of one key that are offered in a row, at most the last one, `x`, is in the output,
    if none of the other pairs of the key satisfies `R`. -/
theorem eq_of_mem_output {R : V → Prop} {p B s : List (K × V)}
    (hl : l.map Prod.fst = p ++ (B ++ [x] ++ s))
    (hp : ∀ y ∈ p, y.1 = x.1 → ¬ R y.2 ∧ ∀ z ∈ B ++ [x], better y.2 z.2)
    (hB : ∀ y ∈ B, y.1 = x.1) (hbetter : (B ++ [x]).Pairwise fun y z => better y.2 z.2)
    (hs : ∀ y ∈ s, y.1 ≠ x.1) :
    ∀ y ∈ output better l ks, y.1 = x.1 → R y.2 → y = x := by
  obtain ⟨p', l', rfl, rfl, hl'⟩ := map_eq_append_iff.1 hl
  obtain ⟨B', s', rfl, hB', rfl⟩ := map_eq_append_iff.1 hl'
  have hkeys : ∀ y ∈ B', y.1.1 = x.1 := by
    have hmap : ∀ y ∈ B'.map Prod.fst, y.1 = x.1 := by
      rw [hB']
      exact forall_mem_concat.2 ⟨hB, rfl⟩
    exact forall_mem_map.1 hmap
  have hlast : (B'.map Prod.fst).getLast? = some x := by
    rw [hB', getLast?_concat]
  rw [← hB', pairwise_map] at hbetter
  rw [← hB'] at hp
  rcases B' with _ | ⟨b, B'⟩
  · exact nomatch hlast
  rw [map_cons] at hp hlast
  obtain ⟨hb, hbetter⟩ := pairwise_cons.1 hbetter
  rw [forall_mem_cons] at hkeys
  rw [forall_mem_map] at hs hp
  -- what was offered before the block does not keep its first pair out
  have hpre : (offerAll better {} p').All
      fun y => y.1 = b.1.1 → ¬ R y.2 ∧ better y.2 b.1.2 := by
    refine all_empty.offerAll fun y hy hkey => ?_
    obtain ⟨hR, hbest⟩ := hp y hy (hkey.trans hkeys.1)
    exact ⟨hR, hbest b.1 mem_cons_self⟩
  -- within the block each pair replaces the one before, so the last one stays
  have hvalue : (B'.getLast?.map fun y => y.1.2).getD b.1.2 = x.2 := by
    rw [getLast?_cons, getLast?_map] at hlast
    rcases hB'' : B'.getLast? with _ | y <;> rw [hB''] at hlast <;>
      exact congrArg Prod.snd (Option.some.inj hlast)
  have hall := hpre.offer_block (fun y hy => ⟨(hkeys.2 y hy).trans hkeys.1.symm, hb y hy⟩) hbetter
  rw [hvalue] at hall
  intro y hy hkey hR
  rw [output, offerAll_append, offerAll_append, offerAll_cons] at hy
  refine Prod.ext hkey ?_
  exact (hall.offerAll fun z hz hzkey => absurd (hzkey.trans hkeys.1) (hs z hz)).forall_mem_drain
    y hy (hkey.trans hkeys.1.symm) hR

/-! ## Spilling nothing -/

/-- The spilled pairs have different keys, none of which is live. -/
structure Unique (m : SpillingMap K V) : Prop where
  nodup : (m.spilled.map Prod.fst).Nodup
  not_live : ∀ x ∈ m.spilled, m.live.lookup x.1 = none

theorem Unique.spillKey (h : m.Unique) : (m.spillKey k).Unique := by
  rcases hk : m.live.lookup k with _ | v
  · rwa [SpillingMap.spillKey, hk]
  · rw [SpillingMap.spillKey, hk]
    refine ⟨?_, fun x hx => ?_⟩
    · rw [map_append, map_singleton, nodup_append]
      refine ⟨h.nodup, nodup_singleton k, fun a ha b hb heq => ?_⟩
      obtain ⟨x, hx, hxa⟩ := mem_map.1 ha
      have hnone := h.not_live x hx
      rw [hxa, heq, mem_singleton.1 hb, hk] at hnone
      exact nomatch hnone
    · rcases mem_concat.1 hx with hx | rfl
      · by_cases heq : x.1 = k
        · rw [heq]
          exact lookup_erase k m.live
        · exact (AList.lookup_erase_ne heq).trans (h.not_live x hx)
      · exact lookup_erase k m.live

theorem Unique.spill (h : m.Unique) : (m.spill ks).Unique :=
  foldlRecOn ks _ h fun _ h _ _ => h.spillKey

/-- Without pressure nothing is spilled. -/
theorem spilled_offerAll_of_not_spilled (hl : ∀ x ∈ l, x.2 = []) :
    (m.offerAll better l).spilled = m.spilled := by
  induction l generalizing m with
  | nil => rfl
  | cons x l ih =>
    rw [forall_mem_cons] at hl
    rw [offerAll_cons, ih hl.2]
    rcases hv : m.live.lookup x.1.1 with _ | v
    · rw [offer_of_lookup_eq_none hv, hl.1]
      rfl
    · by_cases hb : better v x.1.2
      · rw [offer_of_better hv hb]
      · rw [offer_of_not_better hv hb]

/-- If nothing is spilled, the output has one pair for each key. -/
theorem eq_of_not_spilled (hl : ∀ x ∈ l, x.2 = []) {x y : K × V} (hx : x ∈ output better l ks)
    (hy : y ∈ output better l ks) (hkey : x.1 = y.1) : x = y := by
  have hunique : (offerAll better {} l).Unique := by
    have hspilled : (offerAll better {} l).spilled = [] := spilled_offerAll_of_not_spilled hl
    exact ⟨by simp [hspilled], by simp [hspilled]⟩
  exact inj_on_of_nodup_map hunique.spill.spill.nodup hx hy hkey

/-- A property of the live value of a key that no better value comes along to destroy. -/
theorem forall_lookup_offerAll {P : V → Prop} (hl : ∀ x ∈ l, x.2 = [])
    (hv : m.live.lookup k = some v) (hP : P v)
    (hbest : ∀ x ∈ l, x.1.1 = k → ∀ v, P v → ¬ better v x.1.2) :
    ∃ w, (m.offerAll better l).live.lookup k = some w ∧ P w := by
  induction l generalizing m v with
  | nil => exact ⟨v, hv, hP⟩
  | cons x l ih =>
    rw [forall_mem_cons] at hl hbest
    rw [offerAll_cons]
    rcases hx : m.live.lookup x.1.1 with _ | u
    · have hne : k ≠ x.1.1 := by
        rintro rfl
        simp [hv] at hx
      refine ih hl.2 (v := v) ?_ hP hbest.2
      rw [offer_of_lookup_eq_none hx, hl.1]
      exact (lookup_insert_ne hne).trans hv
    · by_cases hb : better u x.1.2
      · have hne : k ≠ x.1.1 := by
          rintro rfl
          cases hv.symm.trans hx
          exact hbest.1 rfl v hP hb
        rw [offer_of_better hx hb]
        exact ih hl.2 ((lookup_insert_ne hne).trans hv) hP hbest.2
      · rw [offer_of_not_better hx hb]
        exact ih hl.2 hv hP hbest.2

/-- If nothing is spilled, the values of a key in the output have a property that the value of
    `x` has, the values before it have if they are not worse, and no value after it is better than
    one with the property. -/
theorem forall_mem_output_of_not_spilled (hl : l.map Prod.fst = p ++ x :: s)
    (hnil : ∀ y ∈ l, y.2 = []) {P : V → Prop} (hx : P x.2)
    (hp : ∀ y ∈ p, y.1 = x.1 → ¬ better y.2 x.2 → P y.2)
    (hs : ∀ y ∈ s, y.1 = x.1 → ∀ v, P v → ¬ better v y.2) :
    ∀ y ∈ output better l ks, y.1 = x.1 → P y.2 := by
  have hspilled : (offerAll better {} l).spilled = [] := spilled_offerAll_of_not_spilled hnil
  obtain ⟨p', s', rfl, rfl, hs'⟩ := map_eq_append_iff.1 hl
  obtain ⟨x', s', rfl, rfl, rfl⟩ := map_eq_cons_iff.1 hs'
  rw [forall_mem_append, forall_mem_cons] at hnil
  rw [forall_mem_map] at hp hs
  have hall : (offerAll better {} p').All
      fun y => y.1 = x'.1.1 → ¬ better y.2 x'.1.2 → P y.2 := all_empty.offerAll hp
  -- the property holds once `x` was offered
  have hlookup : ∃ v, ((offerAll better {} p').offer better x').live.lookup x'.1.1 = some v ∧
      P v := by
    by_cases hb : ∀ v, (offerAll better {} p').live.lookup x'.1.1 = some v → better v x'.1.2
    · exact ⟨x'.1.2, lookup_offer hb, hx⟩
    · push Not at hb
      obtain ⟨v, hv, hb⟩ := hb
      refine ⟨v, ?_, hall.live _ v hv rfl hb⟩
      rw [offer_of_not_better hv hb, hv]
  obtain ⟨v, hv, hP⟩ := hlookup
  obtain ⟨w, hw, hPw⟩ := forall_lookup_offerAll hnil.2.2 hv hP hs
  have hlive : (offerAll better {} (p' ++ x' :: s')).All fun y => y.1 = x'.1.1 → P y.2 := by
    refine ⟨fun k u hu hk => ?_, fun y hy => ?_⟩
    · have hk : k = x'.1.1 := hk
      rw [offerAll_append, offerAll_cons, hk, hw] at hu
      exact Option.some.inj hu ▸ hPw
    · simp [hspilled] at hy
  exact hlive.forall_mem_drain

/-! ## Spilling everything -/

/-- The pairs of a list without those that are followed by one of the same key. -/
def collapse : List (K × V) → List (K × V)
  | [] => []
  | [x] => [x]
  | x :: y :: l => if x.1 = y.1 then collapse (y :: l) else x :: collapse (y :: l)

theorem spill_empty (hm : m.live = ∅) : m.spill ks = m := by
  induction ks with
  | nil => rfl
  | cons k ks ih =>
    have hk : m.spillKey k = m := by
      rw [spillKey, hm]
      rfl
    rw [spill, foldl_cons, hk]
    exact ih

theorem lookup_singleton (k : K) (v : V) :
    (AList.singleton k v : AList fun _ : K => V).lookup k = some v := by
  rw [← insert_empty]
  exact lookup_insert _

theorem lookup_singleton_ne {k : K} (h : k' ≠ k) (v : V) :
    (AList.singleton k v : AList fun _ : K => V).lookup k' = none := by
  rw [← insert_empty]
  exact lookup_insert_ne h

theorem spill_singleton (hm : m.live = .singleton x.1 x.2) (hx : x.1 ∈ ks) :
    m.spill ks = { live := ∅, spilled := m.spilled ++ [x] } := by
  induction ks with
  | nil => exact nomatch hx
  | cons k ks ih =>
    rw [spill, foldl_cons]
    by_cases hk : k = x.1
    · have hspill : m.spillKey k = { live := ∅, spilled := m.spilled ++ [x] } := by
        have herase : m.live.erase k = ∅ := by
          rw [hm]
          exact AList.ext (kerase_cons_eq hk)
        rw [spillKey, herase, hk, hm, lookup_singleton]
      rw [hspill]
      exact spill_empty rfl
    · have hspill : m.spillKey k = m := by
        rw [spillKey, hm, lookup_singleton_ne hk]
      rw [hspill]
      exact ih ((mem_cons.1 hx).resolve_left (Ne.symm hk))

/-- A map with the only live pair `x`, all of which is spilled at each chance. -/
theorem drain_offerAll_eq_collapse (hm : m.live = .singleton x.1 x.2)
    (hks : ∀ y ∈ l, x.1 ∈ y.2 ∧ ∀ z ∈ l, z.1.1 ∈ y.2)
    (hbetter : (x :: l.map Prod.fst).Pairwise fun y z => y.1 = z.1 → better y.2 z.2) :
    (m.offerAll better l).drain [] = m.spilled ++ collapse (x :: l.map Prod.fst) := by
  induction l generalizing m x with
  | nil =>
    have hkeys : x.1 ∈ m.live.keys := by
      rw [hm]
      exact mem_singleton_self x.1
    change (m.spill m.live.keys).spilled = _
    rw [spill_singleton hm hkeys]
    rfl
  | cons y l ih =>
    rw [forall_mem_cons] at hks
    rw [map_cons] at hbetter
    have hbetter' := (pairwise_cons.1 hbetter)
    have hks' : ∀ z ∈ l, y.1.1 ∈ z.2 ∧ ∀ z' ∈ l, z'.1.1 ∈ z.2 := fun z hz =>
      ⟨(hks.2 z hz).2 y mem_cons_self, fun z' hz' =>
        (hks.2 z hz).2 z' (mem_cons_of_mem y hz')⟩
    rw [offerAll_cons, map_cons, collapse]
    -- a pair of the same key replaces the live one, any other one makes it spill
    by_cases hkey : x.1 = y.1.1
    · have hlookup : m.live.lookup y.1.1 = some x.2 := by
        rw [hm, ← hkey, lookup_singleton]
      rw [if_pos hkey, offer_of_better hlookup (hbetter'.1 y.1 mem_cons_self hkey)]
      refine ih ?_ hks' hbetter'.2
      change m.live.insert y.1.1 y.1.2 = _
      rw [hm, hkey]
      exact AList.insert_singleton_eq
    · have hlookup : m.live.lookup y.1.1 = none := by
        rw [hm, lookup_singleton_ne (Ne.symm hkey)]
      rw [if_neg hkey, offer_of_lookup_eq_none hlookup, spill_singleton hm hks.1.1]
      rw [ih (insert_empty _ _) hks' hbetter'.2, append_assoc]
      rfl

/-- If everything is spilled at each chance, only pairs that are right next to each other are
    merged. -/
theorem output_eq_collapse (hks : ∀ x ∈ l, ∀ y ∈ l, y.1.1 ∈ x.2)
    (hbetter : (l.map Prod.fst).Pairwise fun x y => x.1 = y.1 → better x.2 y.2) :
    output better l [] = collapse (l.map Prod.fst) := by
  rcases l with _ | ⟨x, l⟩
  · rfl
  · have hoffer : offer better ({} : SpillingMap K V) x =
        { live := .singleton x.1.1 x.1.2, spilled := [] } := by
      rw [offer_of_lookup_eq_none rfl, spill_empty rfl]
      rfl
    rw [output, offerAll_cons, hoffer, drain_offerAll_eq_collapse rfl ?_ hbetter]
    · rfl
    · intro y hy
      exact ⟨hks y (mem_cons_of_mem x hy) x mem_cons_self, fun z hz =>
        hks y (mem_cons_of_mem x hy) z (mem_cons_of_mem x hz)⟩

/-- Only entries are dropped. -/
theorem collapse_sublist (l : List (K × V)) : (collapse l).Sublist l := by
  induction l using collapse.induct with
  | case1 | case2 x => exact Sublist.refl _
  | case3 x y l hkey ih =>
    rw [collapse, if_pos hkey]
    exact ih.cons x
  | case4 x y l hkey ih =>
    rw [collapse, if_neg hkey]
    exact ih.cons_cons x

/-- A pair that is followed by one of another key stays, and so does the last one. -/
theorem mem_collapse (hs : ∀ y ∈ s.head?, y.1 ≠ x.1) : x ∈ collapse (p ++ x :: s) := by
  induction p with
  | nil =>
    rcases s with _ | ⟨y, s⟩
    · exact mem_singleton_self x
    · rw [nil_append, collapse, if_neg (Ne.symm (hs y rfl))]
      exact mem_cons_self
  | cons a p ih =>
    obtain ⟨b, l, hl⟩ := exists_cons_of_ne_nil (append_ne_nil_of_right_ne_nil p (cons_ne_nil x s))
    rw [hl] at ih
    rw [cons_append, hl, collapse]
    split
    · exact ih
    · exact mem_cons_of_mem a ih

theorem exists_collapse_cons (x : K × V) (l : List (K × V)) :
    ∃ y l', collapse (x :: l) = y :: l' ∧ y.1 = x.1 := by
  induction l generalizing x with
  | nil => exact ⟨x, [], rfl, rfl⟩
  | cons z l ih =>
    rw [collapse]
    split
    · obtain ⟨y, l', hl', hy⟩ := ih z
      exact ⟨y, l', hl', hy.trans ‹x.1 = z.1›.symm⟩
    · exact ⟨x, _, rfl, rfl⟩

/-- No two pairs next to each other have the same key. -/
theorem isChain_collapse (l : List (K × V)) : (collapse l).IsChain fun x y => x.1 ≠ y.1 := by
  induction l using collapse.induct with
  | case1 => exact .nil
  | case2 x => exact .singleton x
  | case3 x y l hkey ih => rwa [collapse, if_pos hkey]
  | case4 x y l hkey ih =>
    rw [collapse, if_neg hkey]
    obtain ⟨z, l', hl', hz⟩ := exists_collapse_cons y l
    rw [hl'] at ih ⊢
    exact .cons_cons (fun h => hkey (h.trans hz)) ih

end SpillingMap

end Redpanda.Lib
