import Mathlib

/-!
# Lib.Ownership

Resources that are acquired and released, as the log of these uses, and what it takes that each is
released once for each time it was acquired.

* `releaseCounts r log` — how often `r` was released, for each time it was acquired.
* `OnceEach log`        — every time once; `Held log r` — not yet, since it was acquired last.
* `Linear owned log`    — the resources that have an owner are the held ones, and no other is
  outstanding. `Linear.acquire`, `Linear.release`, `Linear.stray` and `Linear.perm` keep it, and
  with no owner left it is `OnceEach`.
-/

namespace Ownership

inductive Use (ρ : Type) where
  | acquire (r : ρ)
  | release (r : ρ)
  deriving DecidableEq

variable {ρ : Type} [DecidableEq ρ]

/-- One release more for the last time. -/
def countRelease : List Nat → List Nat
  | [] => []
  | n :: ns => (n + 1) :: ns

def countUse (r : ρ) (counts : List Nat) : Use ρ → List Nat
  | .acquire s => if s = r then 0 :: counts else counts
  | .release s => if s = r then countRelease counts else counts

/-- How often `r` was released, for each time it was acquired, the last time first. -/
def releaseCounts (r : ρ) (log : List (Use ρ)) : List Nat := log.foldl (countUse r) []

def OnceEach (log : List (Use ρ)) : Prop := ∀ r, ∀ n ∈ releaseCounts r log, n = 1

/-- Acquired, and not released since. -/
def Held (log : List (Use ρ)) (r : ρ) : Prop := (releaseCounts r log).head? = some 0

instance (log : List (Use ρ)) (r : ρ) : Decidable (Held log r) :=
  inferInstanceAs (Decidable (_ = _))

/-! ## One use more -/

section Uses

variable {log : List (Use ρ)} {r s : ρ}

theorem releaseCounts_concat (r : ρ) (log : List (Use ρ)) (u : Use ρ) :
    releaseCounts r (log ++ [u]) = countUse r (releaseCounts r log) u := List.foldl_concat ..

theorem releaseCounts_acquire :
    releaseCounts r (log ++ [.acquire r]) = 0 :: releaseCounts r log := by
  rw [releaseCounts_concat, countUse, if_pos rfl]

theorem releaseCounts_acquire_ne (h : s ≠ r) :
    releaseCounts r (log ++ [.acquire s]) = releaseCounts r log := by
  rw [releaseCounts_concat, countUse, if_neg h]

theorem releaseCounts_release :
    releaseCounts r (log ++ [.release r]) = countRelease (releaseCounts r log) := by
  rw [releaseCounts_concat, countUse, if_pos rfl]

theorem releaseCounts_release_ne (h : s ≠ r) :
    releaseCounts r (log ++ [.release s]) = releaseCounts r log := by
  rw [releaseCounts_concat, countUse, if_neg h]

/-- Nothing is counted for what was never acquired. -/
theorem releaseCounts_release_nil (h : releaseCounts r log = []) (s : ρ) :
    releaseCounts r (log ++ [.release s]) = [] := by
  by_cases hs : s = r
  · subst hs
    rw [releaseCounts_release, h]
    rfl
  · rwa [releaseCounts_release_ne hs]

theorem held_acquire (log : List (Use ρ)) (r : ρ) : Held (log ++ [.acquire r]) r := by
  rw [Held, releaseCounts_acquire, List.head?_cons]

theorem Held.acquire (h : Held log r) (s : ρ) : Held (log ++ [.acquire s]) r := by
  by_cases hs : s = r
  · subst hs
    exact held_acquire log s
  · rwa [Held, releaseCounts_acquire_ne hs]

theorem not_held_acquire (h : ¬ Held log r) (hs : s ≠ r) : ¬ Held (log ++ [.acquire s]) r := by
  rwa [Held, releaseCounts_acquire_ne hs]

theorem Held.release (h : Held log r) (hs : s ≠ r) : Held (log ++ [.release s]) r := by
  rwa [Held, releaseCounts_release_ne hs]

theorem not_held_release (log : List (Use ρ)) (r : ρ) : ¬ Held (log ++ [.release r]) r := by
  rw [Held, releaseCounts_release]
  cases releaseCounts r log with
  | nil => simp [countRelease]
  | cons n ns => simp [countRelease]

/-- What is still held at the end was not released often enough. -/
theorem Held.not_onceEach (h : Held log r) : ¬ OnceEach log := by
  intro honce
  have hmem := List.mem_of_mem_head? h
  exact absurd (honce r 0 hmem) (by decide)

end Uses

/-! ## Owners -/

/-- A resource that is owned has one owner, is held, and was released once for each time before;
any other was released once for each time. -/
structure Linear (owned : List ρ) (log : List (Use ρ)) : Prop where
  nodup : owned.Nodup
  outstanding : ∀ r ∈ owned, ∃ ns, releaseCounts r log = 0 :: ns ∧ ∀ n ∈ ns, n = 1
  settled : ∀ r, r ∉ owned → ∀ n ∈ releaseCounts r log, n = 1

namespace Linear

variable {owned owned' : List ρ} {log : List (Use ρ)} {r : ρ}

theorem nil : Linear ([] : List ρ) [] := by
  refine ⟨List.nodup_nil, by simp, ?_⟩
  intro r _ n hn
  cases hn

theorem held (h : Linear owned log) (hr : r ∈ owned) : Held log r := by
  obtain ⟨ns, hcounts, -⟩ := h.outstanding r hr
  rw [Held, hcounts, List.head?_cons]

theorem perm (h : Linear owned log) (hp : owned'.Perm owned) : Linear owned' log := by
  refine ⟨hp.nodup_iff.mpr h.nodup, ?_, ?_⟩
  · intro r hr
    exact h.outstanding r (hp.mem_iff.mp hr)
  · intro r hr
    exact h.settled r fun hmem => hr (hp.mem_iff.mpr hmem)

theorem acquire (h : Linear owned log) (hr : ¬ Held log r) :
    Linear (r :: owned) (log ++ [.acquire r]) := by
  have hnot : r ∉ owned := fun hmem => hr (h.held hmem)
  refine ⟨List.nodup_cons.mpr ⟨hnot, h.nodup⟩, ?_, ?_⟩
  · intro s hs
    by_cases heq : s = r
    · subst heq
      exact ⟨_, releaseCounts_acquire, h.settled s hnot⟩
    · rw [releaseCounts_acquire_ne (Ne.symm heq)]
      exact h.outstanding s ((List.mem_cons.mp hs).resolve_left heq)
  · intro s hs
    rw [List.mem_cons, not_or] at hs
    rw [releaseCounts_acquire_ne (Ne.symm hs.1)]
    exact h.settled s hs.2

theorem release (h : Linear (r :: owned) log) : Linear owned (log ++ [.release r]) := by
  obtain ⟨hnot, hnodup⟩ := List.nodup_cons.mp h.nodup
  refine ⟨hnodup, ?_, ?_⟩
  · intro s hs
    have hne : r ≠ s := by
      rintro rfl
      exact hnot hs
    rw [releaseCounts_release_ne hne]
    exact h.outstanding s (List.mem_cons_of_mem _ hs)
  · intro s hs n hn
    by_cases heq : r = s
    · subst heq
      obtain ⟨ns, hcounts, hones⟩ := h.outstanding r List.mem_cons_self
      rw [releaseCounts_release, hcounts, countRelease, List.mem_cons] at hn
      exact hn.elim id (hones n)
    · rw [releaseCounts_release_ne heq] at hn
      exact h.settled s (by simp [Ne.symm heq, hs]) n hn

/-- The release of something that was never acquired. -/
theorem stray (h : Linear owned log) (hr : releaseCounts r log = []) :
    Linear owned (log ++ [.release r]) := by
  have hsame : ∀ s, releaseCounts s (log ++ [.release r]) = releaseCounts s log := by
    intro s
    by_cases heq : r = s
    · subst heq
      rw [releaseCounts_release_nil hr, hr]
    · exact releaseCounts_release_ne heq
  refine ⟨h.nodup, ?_, ?_⟩
  · intro s hs
    rw [hsame]
    exact h.outstanding s hs
  · intro s hs
    rw [hsame]
    exact h.settled s hs

theorem onceEach (h : Linear ([] : List ρ) log) : OnceEach log :=
  fun r => h.settled r List.not_mem_nil

end Linear

end Ownership
