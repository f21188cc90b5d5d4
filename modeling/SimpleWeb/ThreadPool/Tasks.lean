import SimpleWeb.ThreadPool.History

/-!
# ThreadPool.Tasks

The pool with numbers for tasks, counted up as they are given to `emplace_back`. A task is run once
at most, so behind the last one there is nothing left to run (`Submitted.runs_nil`).
-/

namespace SimpleWeb
namespace ThreadPool

variable {n : Nat} {τ : Type}

/-- The task a worker's next step runs -/
def Pool.runs (p : Pool n τ) (i : Fin n) : List τ :=
  if p.worker i = .runFront then (p.list i).take 1 else []

/-- The future of the task is ready. -/
def Pool.Ready (p : Pool n τ) (t : τ) : Prop := ∃ i, t ∈ p.ran i

instance [DecidableEq τ] (p : Pool n τ) (t : τ) : Decidable (p.Ready t) :=
  inferInstanceAs (Decidable (∃ i, t ∈ p.ran i))

/-- The pool has been given the tasks `0`, …, `m - 1`, and is not destroyed. -/
structure Submitted (p : Pool n Nat) (m : Nat) : Prop where
  run : ∃ acts, Act.destroy ∉ acts ∧
    Lts.run step (init n Nat) acts = some p ∧ emplaced acts = List.range m

section Tasks

variable {p p' : Pool n Nat} {m k : Nat} {i : Fin n}

theorem submitted_init : Submitted (init n Nat) 0 := ⟨[], by simp, rfl, rfl⟩

theorem Submitted.next (h : Submitted p m) {a : Act n Nat}
    (ha : a ≠ .destroy) (hs : step p a = some p') {m' : Nat}
    (hm : List.range m ++ emplaced [a] = List.range m') : Submitted p' m' := by
  obtain ⟨acts, hd, hrun, hem⟩ := h.run
  refine ⟨acts ++ [a], ?_, Lts.run_concat_eq_some.mpr ⟨p, hrun, hs⟩, ?_⟩
  · simpa [hd] using ha.symm
  · have hsplit : emplaced (acts ++ [a]) = emplaced acts ++ emplaced [a] := List.filterMap_append
    rw [hsplit, hem, hm]

/-- Each task has been run at most once, and no other. -/
theorem Submitted.ran_le (h : Submitted p m) :
    ∑ i, (p.ran i : Multiset Nat) ≤ (List.range m : Multiset Nat) := by
  obtain ⟨acts, hd, hrun, hem⟩ := h.run
  rcases Nat.eq_zero_or_pos n with rfl | hn
  · simp
  · obtain ⟨g, hg, rfl⟩ := Logged.run_pool acts hrun
    rw [← hem, ← Logged.known_run hn acts hd g hg]
    exact Logged.ran_le_known (Logged.fifo_run acts hg)

theorem ready_iff : p.Ready k ↔ k ∈ ∑ i, (p.ran i : Multiset Nat) := by
  simp [Pool.Ready, Multiset.mem_sum]

theorem Submitted.lt_of_ready (h : Submitted p m) (hk : p.Ready k) : k < m := by
  have hmem := Multiset.mem_of_le h.ran_le (ready_iff.mp hk)
  simpa using hmem

/-- When all tasks have been run, each has been run once. -/
theorem Submitted.ran_eq (h : Submitted p m) (hall : ∀ k < m, p.Ready k) :
    ∑ i, (p.ran i : Multiset Nat) = (List.range m : Multiset Nat) := by
  refine le_antisymm h.ran_le ((Multiset.le_iff_subset ?_).mpr ?_)
  · exact Multiset.coe_nodup.mpr List.nodup_range
  · intro k hk
    exact ready_iff.mp (hall k (by simpa using hk))

/-- Only workers run tasks. -/
theorem ran_frame {a : Act n Nat} (ha : ∀ i, a ≠ .worker i) (h : step p a = some p') :
    p'.ran = p.ran := by
  cases step_move h with
  | emplaceBack | destroy | wake => rfl
  | submitter h => exact submitterStep_ran h
  | @worker i _ _ => exact absurd rfl (ha i)

theorem ran_step {a : Act n Nat} (h : step p a = some p') (j : Fin n) :
    p.ran j <+: p'.ran j := by
  cases step_move h with
  | emplaceBack | destroy | wake => exact List.prefix_refl _
  | submitter h => rw [submitterStep_ran h]
  | @worker i _ h =>
    by_cases hij : j = i
    · subst hij
      obtain ⟨-, r, hran, -⟩ := workerStep_history h
      exact ⟨r, hran.symm⟩
    · rw [workerStep_ran_frame h hij]

theorem Pool.Ready.step {a : Act n Nat} (hk : p.Ready k)
    (h : step p a = some p') : p'.Ready k := by
  obtain ⟨j, hj⟩ := hk
  exact ⟨j, (ran_step h j).subset hj⟩

theorem workerStep_ran (h : workerStep p i = some p') :
    p'.ran = Function.update p.ran i (p.ran i ++ p.runs i) := by
  cases workerStep_move h with
  | runFront hpc hl => simp [Pool.runs, hpc, hl, Pool.setWorker]
  | _ hpc =>
    have hnone : p.runs i = [] := by simp [Pool.runs, hpc]
    rw [hnone, List.append_nil, Function.update_eq_self]
    rfl

theorem runs_cases (p : Pool n Nat) (i : Fin n) : p.runs i = [] ∨ ∃ k, p.runs i = [k] := by
  unfold Pool.runs
  split
  · cases p.list i with
    | nil => exact .inl rfl
    | cons k l => exact .inr ⟨k, rfl⟩
  · exact .inl rfl

theorem workerStep_sum (h : workerStep p i = some p') :
    ∑ j, (p'.ran j : Multiset Nat) = ∑ j, (p.ran j : Multiset Nat) + p.runs i := by
  rw [workerStep_ran h]
  rcases runs_cases p i with hnone | ⟨k, hone⟩
  · rw [hnone, List.append_nil, Function.update_eq_self]
    simp
  · rw [hone]
    exact Logged.sum_update p.ran i k

theorem ready_workerStep (h : step p (.worker i) = some p') :
    p'.Ready k ↔ p.Ready k ∨ k ∈ p.runs i := by
  rw [ready_iff, ready_iff, workerStep_sum h, Multiset.mem_add, Multiset.mem_coe]

/-- A worker does not run a task that has been run. -/
theorem Submitted.runs_fresh (hsub : Submitted p m) (h : step p (.worker i) = some p')
    (hk : k ∈ p.runs i) : ¬ p.Ready k := by
  intro hready
  have hnext : Submitted p' m := hsub.next (by simp) h (by simp [emplaced])
  have hnodup : (∑ j, (p'.ran j : Multiset Nat)).Nodup :=
    Multiset.nodup_of_le hnext.ran_le (Multiset.coe_nodup.mpr List.nodup_range)
  rw [workerStep_sum h] at hnodup
  exact Multiset.disjoint_left.mp (Multiset.nodup_add.mp hnodup).2.2 (ready_iff.mp hready) hk

/-- Behind the last task there is nothing to run. -/
theorem Submitted.runs_nil (hsub : Submitted p m) (hall : ∀ k < m, p.Ready k)
    (h : step p (.worker i) = some p') : p.runs i = [] := by
  have hnext : Submitted p' m := hsub.next (by simp) h (by simp [emplaced])
  have hle := hnext.ran_le
  rw [workerStep_sum h, hsub.ran_eq hall] at hle
  have hcard := Multiset.card_le_card hle
  exact List.length_eq_zero_iff.mp (by simpa using hcard)

end Tasks
end ThreadPool
end SimpleWeb
