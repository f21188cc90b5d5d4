import SimpleWeb.Lib.Lts

/-!
# Lib.Family

A family of machines of one kind. Every action is for one of them, and leaves the others as they
are; so each has run on its own actions only, in their order (`run_member`).
-/

namespace Family

variable {κ σ α : Type} [DecidableEq κ]

/-- A step of the machine an action is for -/
def step (key : α → κ) (next : σ → α → Option σ) (f : κ → σ) (a : α) : Option (κ → σ) :=
  (next (f (key a)) a).map fun s => Function.update f (key a) s

/-- The actions that are for one machine -/
def actions (key : α → κ) (k : κ) (acts : List α) : List α := acts.filter fun a => key a = k

section Run

variable {key : α → κ} {next : σ → α → Option σ} {f g : κ → σ} {acts : List α} {a : α}

theorem step_member (h : step key next f a = some g) :
    next (f (key a)) a = some (g (key a)) ∧ ∀ k, k ≠ key a → g k = f k := by
  obtain ⟨s, hs, rfl⟩ := Option.map_eq_some_iff.mp h
  exact ⟨by rw [hs, Function.update_self], fun k hk => Function.update_of_ne hk ..⟩

/-- A machine of the family has run by itself. -/
theorem run_member (h : Lts.run (step key next) f acts = some g) (k : κ) :
    Lts.run next (f k) (actions key k acts) = some (g k) := by
  induction acts using List.reverseRecOn generalizing g with
  | nil =>
    cases h
    rfl
  | append_singleton acts a ih =>
    obtain ⟨t, ht, hstep⟩ := Lts.run_concat_eq_some.mp h
    obtain ⟨hnext, hothers⟩ := step_member hstep
    have hsplit : actions key k (acts ++ [a]) = actions key k acts ++ actions key k [a] :=
      List.filter_append ..
    by_cases hk : k = key a
    · have hown : actions key k [a] = [a] := by simp [actions, hk]
      rw [hsplit, hown]
      exact Lts.run_concat_eq_some.mpr ⟨t k, ih ht, hk ▸ hnext⟩
    · have hnone : actions key k [a] = [] := by simp [actions, Ne.symm hk]
      rw [hsplit, hnone, List.append_nil, hothers k hk]
      exact ih ht

end Run

end Family
