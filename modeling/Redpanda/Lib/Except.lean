import Mathlib

/-!
# Chains of checks

Code that checks its input step by step returns early with an error. In `Except` such a
chain succeeds exactly if each of its steps does (`Except.bind_eq_ok`, `forM_eq_ok`,
`Except.ite_error_eq_ok`). A loop over the entries of a map that updates a second map under
the same keys is `updateEach`.
-/

namespace Redpanda.Lib

open List

universe u v

variable {ε : Type v} {α β : Type u} {l : List α}

namespace Except

variable {x : Except ε α} {a : α}

theorem bind_eq_ok {f : α → Except ε β} {b : β} :
    x >>= f = .ok b ↔ ∃ a, x = .ok a ∧ f a = .ok b := by
  rcases x with e | a
  · exact ⟨nofun, fun ⟨_, h, _⟩ => (nomatch h)⟩
  · exact ⟨fun h => ⟨a, rfl, h⟩, fun ⟨_, h, h'⟩ => Except.ok.inj h ▸ h'⟩

theorem ite_error_eq_ok {c : Prop} [Decidable c] {e : ε} :
    (if c then .error e else x) = .ok a ↔ ¬ c ∧ x = .ok a := by
  split_ifs with h
  · exact ⟨nofun, fun h' => absurd h h'.1⟩
  · exact ⟨fun hx => ⟨h, hx⟩, fun hx => hx.2⟩

theorem ite_ok_error_eq_ok {c : Prop} [Decidable c] {e : ε} :
    (if c then x else .error e) = .ok a ↔ c ∧ x = .ok a := by
  split_ifs with h
  · exact ⟨fun hx => ⟨h, hx⟩, fun hx => hx.2⟩
  · exact ⟨nofun, fun h' => absurd h'.1 h⟩

theorem toOption_eq_some : x.toOption = some a ↔ x = .ok a := by
  rcases x with e | b
  · exact ⟨nofun, nofun⟩
  · exact ⟨fun h => congrArg Except.ok (Option.some.inj h), fun h => congrArg some (Except.ok.inj h)⟩

end Except

theorem forM_eq_ok {f : α → Except ε PUnit} {a : PUnit} :
    l.forM f = .ok a ↔ ∀ x ∈ l, f x = .ok PUnit.unit := by
  rw [forM_eq_forM]
  induction l with
  | nil => simp [pure, Except.pure]
  | cons x l ih =>
    rw [forM_cons, Except.bind_eq_ok, forall_mem_cons]
    exact ⟨fun ⟨_, h, h'⟩ => ⟨h, ih.1 h'⟩, fun ⟨h, h'⟩ => ⟨_, h, ih.2 h'⟩⟩

/-- Data of the values that are computed for the elements of a list, if it is determined by
    the elements. -/
theorem map_of_mapM_eq_ok {γ : Type*} {f : α → Except ε β} {g : β → γ} {h : α → γ}
    (hf : ∀ {a b}, f a = .ok b → g b = h a) {l' : List β} (hl : l.mapM f = .ok l') :
    l'.map g = l.map h := by
  induction l generalizing l' with
  | nil =>
    cases hl
    rfl
  | cons a l ih =>
    rw [mapM_cons] at hl
    obtain ⟨b, hb, hl⟩ := Except.bind_eq_ok.1 hl
    obtain ⟨l'', hl'', hl⟩ := Except.bind_eq_ok.1 hl
    cases hl
    rw [map_cons, map_cons, hf hb, ih hl'']

/-- What holds of the whole list and the first value, and is kept by each step for the rest
    of the list, holds at the end. -/
theorem foldlM_invariant {f : β → α → Except ε β} (P : List α → β → Prop)
    (hstep : ∀ {a l b b'}, P (a :: l) b → f b a = .ok b' → P l b') {b b' : β}
    (h : l.foldlM f b = .ok b') (hb : P l b) : P [] b' := by
  induction l generalizing b with
  | nil => exact Except.ok.inj h ▸ hb
  | cons a l ih =>
    rw [foldlM_cons] at h
    obtain ⟨c, hc, h⟩ := Except.bind_eq_ok.1 h
    exact ih h (hstep hb hc)

theorem foldl_invariant {f : β → α → β} (P : List α → β → Prop)
    (hstep : ∀ {a l b}, P (a :: l) b → P l (f b a)) {b : β} (hb : P l b) :
    P [] (l.foldl f b) := by
  induction l generalizing b with
  | nil => exact hb
  | cons a l ih => exact ih (hstep hb)

/-! ## Updating the entries of a map -/

variable {K V X : Type u} [DecidableEq K]

/-- For each of the entries in turn, the value of its key in the map is computed anew,
    from the entry and the value in the map so far, if any. -/
def updateEach (f : K → V → Option X → Except ε X) (l : List (Sigma fun _ : K => V))
    (m : AList fun _ : K => X) : Except ε (AList fun _ : K => X) :=
  l.foldlM (fun m p => do
    let x ← f p.1 p.2 (m.lookup p.1)
    return m.insert p.1 x) m

variable {l : List (Sigma fun _ : K => V)} {f : K → V → Option X → Except ε X}
  {m m' : AList fun _ : K => X} {k : K}

theorem of_updateEach_cons {p : Sigma fun _ : K => V} (h : updateEach f (p :: l) m = .ok m') :
    ∃ x, f p.1 p.2 (m.lookup p.1) = .ok x ∧ updateEach f l (m.insert p.1 x) = .ok m' := by
  rw [updateEach, foldlM_cons, Except.bind_eq_ok] at h
  obtain ⟨a, ha, h⟩ := h
  obtain ⟨x, hx, ha⟩ := Except.bind_eq_ok.1 ha
  exact ⟨x, hx, Except.ok.inj ha ▸ h⟩

/-- The values of other keys stay. -/
theorem lookup_updateEach_of_not_mem (h : updateEach f l m = .ok m') (hk : k ∉ l.keys) :
    m'.lookup k = m.lookup k := by
  induction l generalizing m with
  | nil => exact Except.ok.inj h ▸ rfl
  | cons p l ih =>
    obtain ⟨x, -, h⟩ := of_updateEach_cons h
    rw [keys_cons, mem_cons, not_or] at hk
    rw [ih h hk.2, AList.lookup_insert_ne hk.1]

/-- The value of the key of an entry is the one computed for it, if the keys of the
    entries are distinct. -/
theorem lookup_updateEach (hl : l.NodupKeys) (h : updateEach f l m = .ok m') {v : V}
    (hk : ⟨k, v⟩ ∈ l) : ∃ x, f k v (m.lookup k) = .ok x ∧ m'.lookup k = some x := by
  induction l generalizing m with
  | nil => cases hk
  | cons p l ih =>
    obtain ⟨x, hx, h⟩ := of_updateEach_cons h
    rw [nodupKeys_cons] at hl
    rcases mem_cons.1 hk with rfl | hk
    · exact ⟨x, hx, by rw [lookup_updateEach_of_not_mem h hl.1, AList.lookup_insert]⟩
    · obtain ⟨y, hy, hm'⟩ := ih hl.2 h hk
      have hne : k ≠ p.1 := fun heq => hl.1 (heq ▸ mem_keys_of_mem hk)
      exact ⟨y, by rwa [AList.lookup_insert_ne hne] at hy, hm'⟩

/-- A value of the map was written under its key, or was there before. -/
theorem lookup_updateEach_eq_some (hl : l.NodupKeys) (h : updateEach f l m = .ok m')
    {x : X} (hx : m'.lookup k = some x) :
    (∃ v, ⟨k, v⟩ ∈ l ∧ f k v (m.lookup k) = .ok x) ∨ m.lookup k = some x := by
  by_cases hk : k ∈ l.keys
  · obtain ⟨v, hv⟩ := exists_of_mem_keys hk
    obtain ⟨x', hx', hlookup⟩ := lookup_updateEach hl h hv
    exact .inl ⟨v, hv, Option.some.inj (hlookup.symm.trans hx) ▸ hx'⟩
  · exact .inr ((lookup_updateEach_of_not_mem h hk).symm.trans hx)

section Insert

variable {A : Type*} {f : A → K} {g : A → X}

theorem lookup_foldl_insert_of_not_mem {l : List A} {m : AList fun _ : K => X} {k : K}
    (hk : k ∉ l.map f) :
    (l.foldl (fun m a => m.insert (f a) (g a)) m).lookup k = m.lookup k := by
  induction l generalizing m with
  | nil => rfl
  | cons a l ih =>
    rw [map_cons, mem_cons, not_or] at hk
    rw [foldl_cons, ih hk.2, AList.lookup_insert_ne hk.1]

/-- The value written under a key. -/
theorem lookup_foldl_insert_of_mem {l : List A} (m : AList fun _ : K => X) {k : K}
    (hk : k ∈ l.map f) :
    ∃ a, (l.foldl (fun m a => m.insert (f a) (g a)) m).lookup k = some (g a) := by
  induction l generalizing m with
  | nil => cases hk
  | cons a l ih =>
    by_cases hl : k ∈ l.map f
    · exact ih (m.insert (f a) (g a)) hl
    · obtain rfl : k = f a := (mem_cons.1 hk).resolve_right hl
      refine ⟨a, ?_⟩
      rw [foldl_cons, lookup_foldl_insert_of_not_mem hl, AList.lookup_insert]

end Insert

end Redpanda.Lib
