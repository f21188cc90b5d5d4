import Mathlib

/-!
# Lib.FloorWalk

Walks that go up by one, or down by one unless they stand on a floor, where they stay. The floor
does not move under a step down.

* `gain`    — the steps up of a stretch, less its steps down.
* `le_iff`  — a walk stays below a bound exactly when no stretch gains more than the bound leaves
  to it: counted from where the walk starts, and from the floor on for every later place.
-/

namespace FloorWalk

/-- The steps up from `j` to `k` less the steps down -/
def gain (up : ℕ → Bool) (j k : ℕ) : ℤ := ∑ i ∈ Finset.Ico j k, if up i then 1 else -1

/-- The steps up in front of `k` -/
def rises (up : ℕ → Bool) (k : ℕ) : ℕ := ∑ i ∈ Finset.range k, if up i then 1 else 0

structure Walk (up : ℕ → Bool) (floor x : ℕ → ℤ) : Prop where
  above : ∀ k, floor k ≤ x k
  rise : ∀ k, up k = true → x (k + 1) = x k + 1
  fall : ∀ k, up k = false → floor k < x k → x (k + 1) = x k - 1
  rest : ∀ k, up k = false → x k ≤ floor k → x (k + 1) = x k
  still : ∀ k, up k = false → floor (k + 1) = floor k

section Gain

variable {up : ℕ → Bool} {j k : ℕ}

@[simp] theorem gain_self (up : ℕ → Bool) (k : ℕ) : gain up k k = 0 := by simp [gain]

theorem gain_up (h : j ≤ k) (hup : up k = true) : gain up j (k + 1) = gain up j k + 1 := by
  rw [gain, Finset.sum_Ico_succ_top h, hup]
  rfl

theorem gain_down (h : j ≤ k) (hup : up k = false) : gain up j (k + 1) = gain up j k - 1 := by
  rw [gain, Finset.sum_Ico_succ_top h, hup]
  rfl

theorem rises_up (hup : up k = true) : rises up (k + 1) = rises up k + 1 := by
  rw [rises, Finset.sum_range_succ, hup]
  rfl

theorem rises_down (hup : up k = false) : rises up (k + 1) = rises up k := by
  rw [rises, Finset.sum_range_succ, hup]
  rfl

end Gain

namespace Walk

variable {up : ℕ → Bool} {floor x : ℕ → ℤ} {j k : ℕ} {b : ℤ}

/-- No step goes down by more than one. -/
theorem gain_le (h : Walk up floor x) (hjk : j ≤ k) : x j + gain up j k ≤ x k := by
  induction k, hjk using Nat.le_induction with
  | base => simp
  | succ k hjk ih =>
    cases hup : up k with
    | true =>
      rw [gain_up hjk hup, h.rise k hup]
      omega
    | false =>
      rw [gain_down hjk hup]
      rcases Int.lt_or_le (floor k) (x k) with hlt | hle
      · rw [h.fall k hup hlt]
        omega
      · rw [h.rest k hup hle]
        omega

/-- The walk has come from its start, or from the floor it has stood on last. -/
theorem attained (h : Walk up floor x) (k : ℕ) :
    x k = x 0 + gain up 0 k ∨ ∃ j ≤ k, x k = floor j + gain up j k := by
  induction k with
  | zero => exact .inl (by simp)
  | succ k ih =>
    cases hup : up k with
    | true =>
      rw [h.rise k hup]
      rcases ih with hstart | ⟨j, hj, hfloor⟩
      · exact .inl (by rw [gain_up (Nat.zero_le k) hup, hstart]; ring)
      · exact .inr ⟨j, by omega, by rw [gain_up hj hup, hfloor]; ring⟩
    | false =>
      rcases Int.lt_or_le (floor k) (x k) with hlt | hle
      · rw [h.fall k hup hlt]
        rcases ih with hstart | ⟨j, hj, hfloor⟩
        · exact .inl (by rw [gain_down (Nat.zero_le k) hup, hstart]; ring)
        · exact .inr ⟨j, by omega, by rw [gain_down hj hup, hfloor]; ring⟩
      · -- it stands on its floor, which is the one of the next place
        refine .inr ⟨k + 1, Nat.le_refl _, ?_⟩
        rw [gain_self, add_zero, h.rest k hup hle, h.still k hup]
        exact Int.le_antisymm hle (h.above k)

theorem le_iff (h : Walk up floor x) (k : ℕ) :
    x k ≤ b ↔ x 0 + gain up 0 k ≤ b ∧ ∀ j ≤ k, floor j + gain up j k ≤ b := by
  constructor
  · intro hb
    refine ⟨(h.gain_le (Nat.zero_le k)).trans hb, ?_⟩
    intro j hj
    have habove := h.above j
    have hgain := h.gain_le hj
    omega
  · rintro ⟨hstart, hfloor⟩
    rcases h.attained k with heq | ⟨j, hj, heq⟩
    · exact heq ▸ hstart
    · exact heq ▸ hfloor j hj

end Walk

end FloorWalk
