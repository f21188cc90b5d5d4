import Mathlib

/-!
# Lib.Slots

A table of slots that are opened, closed and opened again. What is opened gets a number, counted up,
so that a slot can be told from the one that was there before under the same key.

* `Table.add` / `Table.close` — the two operations; `opened` and `closed` keep the history.
* `Exact` — every number that was ever given is that of one open slot, or was closed once.
-/

namespace Slots

structure Slot (α : Type) where
  id : Nat
  value : α
  deriving DecidableEq

structure Table (κ α : Type) where
  slots : κ → Option (Slot α)
  /-- the values in the order they were opened in -/
  opened : List α
  closed : List Nat

variable {κ α : Type}

def Table.init : Table κ α := ⟨fun _ => none, [], []⟩

namespace Table

variable [DecidableEq κ]

def add (t : Table κ α) (k : κ) (v : α) : Table κ α :=
  ⟨Function.update t.slots k (some ⟨t.opened.length, v⟩), t.opened ++ [v], t.closed⟩

def close (t : Table κ α) (k : κ) : Table κ α :=
  match t.slots k with
  | none => t
  | some s => ⟨Function.update t.slots k none, t.opened, t.closed ++ [s.id]⟩

section Lookup

variable {t : Table κ α} {k k' : κ} {v : α}

theorem add_self : (t.add k v).slots k = some ⟨t.opened.length, v⟩ := Function.update_self ..

theorem add_ne (h : k' ≠ k) : (t.add k v).slots k' = t.slots k' := Function.update_of_ne h ..

theorem close_self : (t.close k).slots k = none := by
  unfold close
  split
  · assumption
  · exact Function.update_self ..

theorem close_ne (h : k' ≠ k) : (t.close k).slots k' = t.slots k' := by
  unfold close
  split
  · rfl
  · exact Function.update_of_ne h ..

theorem close_opened : (t.close k).opened = t.opened := by
  unfold close
  split <;> rfl

/-- What is open behind `add` is the new slot, or was open before. -/
theorem add_cases {s : Slot α} (h : (t.add k v).slots k' = some s) :
    (k' = k ∧ s = ⟨t.opened.length, v⟩) ∨ (k' ≠ k ∧ t.slots k' = some s) := by
  by_cases hk : k' = k
  · subst hk
    rw [add_self] at h
    exact .inl ⟨rfl, (Option.some.inj h).symm⟩
  · rw [add_ne hk] at h
    exact .inr ⟨hk, h⟩

theorem close_cases {s : Slot α} (h : (t.close k).slots k' = some s) :
    k' ≠ k ∧ t.slots k' = some s := by
  by_cases hk : k' = k
  · subst hk
    rw [close_self] at h
    cases h
  · rw [close_ne hk] at h
    exact ⟨hk, h⟩

end Lookup

end Table

/-- Every number given so far is that of one open slot, with its value, or was closed once. -/
structure Exact (t : Table κ α) : Prop where
  value : ∀ k s, t.slots k = some s → t.opened[s.id]? = some s.value
  unique : ∀ k k' s s', t.slots k = some s → t.slots k' = some s' → s.id = s'.id → k = k'
  once : t.closed.Nodup
  gone : ∀ id ∈ t.closed, id < t.opened.length ∧ ∀ k s, t.slots k = some s → s.id ≠ id
  kept : ∀ id < t.opened.length, id ∈ t.closed ∨ ∃ k s, t.slots k = some s ∧ s.id = id

theorem Exact.init : Exact (Table.init : Table κ α) where
  value := nofun
  unique := nofun
  once := List.nodup_nil
  gone := nofun
  kept := nofun

theorem Exact.lt {t : Table κ α} {k : κ} (h : Exact t) {s : Slot α} (hs : t.slots k = some s) :
    s.id < t.opened.length :=
  (List.getElem?_eq_some_iff.mp (h.value k s hs)).1

variable [DecidableEq κ]

namespace Exact

variable {t : Table κ α} {k : κ}

/-- A slot that is opened is free before. -/
theorem add (h : Exact t) (hfree : t.slots k = none) (v : α) : Exact (t.add k v) := by
  refine ⟨?_, ?_, h.once, ?_, ?_⟩
  · intro k' s hs
    rcases Table.add_cases hs with ⟨-, rfl⟩ | ⟨-, hs⟩
    · simp [Table.add]
    · have hvalue := h.value k' s hs
      simp only [Table.add]
      rwa [List.getElem?_append_left (h.lt hs)]
  · intro k₁ k₂ s₁ s₂ hs₁ hs₂ hid
    rcases Table.add_cases hs₁ with ⟨hk₁, rfl⟩ | ⟨-, hold₁⟩
    · rcases Table.add_cases hs₂ with ⟨hk₂, -⟩ | ⟨-, hold₂⟩
      · rw [hk₁, hk₂]
      · exact absurd hid (h.lt hold₂).ne'
    · rcases Table.add_cases hs₂ with ⟨-, rfl⟩ | ⟨-, hold₂⟩
      · exact absurd hid (h.lt hold₁).ne
      · exact h.unique k₁ k₂ s₁ s₂ hold₁ hold₂ hid
  · intro id hid
    obtain ⟨hlt, hgone⟩ := h.gone id hid
    refine ⟨by simp only [Table.add, List.length_append]; omega, ?_⟩
    intro k' s hs
    rcases Table.add_cases hs with ⟨-, rfl⟩ | ⟨-, hs⟩
    · exact hlt.ne'
    · exact hgone k' s hs
  · intro id hid
    simp only [Table.add, List.length_append, List.length_singleton] at hid
    rcases Nat.lt_succ_iff_lt_or_eq.mp hid with hlt | rfl
    · rcases h.kept id hlt with hclosed | ⟨k', s, hs, rfl⟩
      · exact .inl hclosed
      · refine .inr ⟨k', s, ?_, rfl⟩
        have hne : k' ≠ k := by
          rintro rfl
          rw [hfree] at hs
          cases hs
        rwa [Table.add_ne hne]
    · exact .inr ⟨k, _, Table.add_self, rfl⟩

theorem close (h : Exact t) (k : κ) : Exact (t.close k) := by
  cases hk : t.slots k with
  | none =>
    have hsame : t.close k = t := by simp only [Table.close, hk]
    rwa [hsame]
  | some s =>
    have hclosed : (t.close k).closed = t.closed ++ [s.id] := by simp only [Table.close, hk]
    have hnew : s.id ∉ t.closed := fun hid => (h.gone s.id hid).2 k s hk rfl
    refine ⟨?_, ?_, ?_, ?_, ?_⟩
    · intro k' s' hs'
      rw [Table.close_opened]
      exact h.value k' s' (Table.close_cases hs').2
    · intro k₁ k₂ s₁ s₂ hs₁ hs₂
      exact h.unique k₁ k₂ s₁ s₂ (Table.close_cases hs₁).2 (Table.close_cases hs₂).2
    · rw [hclosed]
      refine List.nodup_append.mpr ⟨h.once, List.nodup_singleton _, ?_⟩
      rintro a ha b hb rfl
      exact hnew (List.mem_singleton.mp hb ▸ ha)
    · intro id hid
      rw [hclosed, List.mem_append, List.mem_singleton] at hid
      rw [Table.close_opened]
      rcases hid with hid | rfl
      · obtain ⟨hlt, hgone⟩ := h.gone id hid
        exact ⟨hlt, fun k' s' hs' => hgone k' s' (Table.close_cases hs').2⟩
      · refine ⟨h.lt hk, ?_⟩
        intro k' s' hs' hid
        obtain ⟨hne, hs'⟩ := Table.close_cases hs'
        exact hne (h.unique k' k s' s hs' hk hid)
    · intro id hid
      rw [Table.close_opened] at hid
      rw [hclosed]
      rcases h.kept id hid with hid | ⟨k', s', hs', rfl⟩
      · exact .inl (List.mem_append_left _ hid)
      · by_cases hne : k' = k
        · subst hne
          rw [hk] at hs'
          cases hs'
          exact .inl (by simp)
        · exact .inr ⟨k', s', by rwa [Table.close_ne hne], rfl⟩

end Exact

end Slots
