import SimpleWeb.ThreadPool.Tasks
import SimpleWeb.ThreadPool.Mutex

/-!
# ThreadPool.Rest

The pool without spurious wakeups. A worker has a few steps for each task in its list and a few
until it blocks, and a call of `emplace_back` has a few, one task and one notification among them:
every step takes one off (`workerStep_work`, `submitterStep_work`). So they come to rest, with all
workers blocked (`Rested`), and a task that has not been run is then one whose wakeup was lost.
-/

namespace SimpleWeb
namespace ThreadPool

variable {n : Nat} {τ : Type}

/-- Steps until the worker blocks, when its list is empty behind its task -/
def WorkerPc.work : WorkerPc → Nat
  | .blocked | .exited => 0
  | .block | .leave => 1
  | .pop => 2
  | .popLocked | .unlockFirst => 3
  | .sizeTest => 4
  | .lockPop => 5
  | .runFront => 6
  | .taskcntTest => 7
  | .unlock => 8
  | .waitTest => 9
  | .emptyTest | .relock => 10
  | .lock => 11
  | .uncount => 12
  | .unlockPopped => 13

/-- Steps of `emplace_back`, with those of a task from `push_back` on and of a worker that is
woken -/
def SubmitterPc.work : SubmitterPc n τ → Nat
  | .count => 1
  | .notify _ => 12
  | .unlockPushed _ => 13
  | .push _ _ => 24
  | .pushLocked _ _ | .unlockFirst _ _ => 25
  | .sizeTest _ _ => 26
  | .lock _ _ => 27
  | .threadId _ => 28
  | _ => 0

def Pool.workOf (p : Pool n τ) (i : Fin n) : Nat := 11 * (p.list i).length + (p.worker i).work

def Pool.work (p : Pool n τ) : Nat := ∑ i, p.workOf i + p.submitter.work

section Work

variable {p p' : Pool n τ} {i : Fin n}

theorem sum_workOf (h : ∀ j, j ≠ i → p'.workOf j = p.workOf j) :
    ∑ j, p'.workOf j + p.workOf i = ∑ j, p.workOf j + p'.workOf i := by
  have hrest : ∑ j ∈ Finset.univ.erase i, p'.workOf j = ∑ j ∈ Finset.univ.erase i, p.workOf j :=
    Finset.sum_congr rfl fun j hj => h j (Finset.ne_of_mem_erase hj)
  have hsplit := Finset.add_sum_erase Finset.univ p.workOf (Finset.mem_univ i)
  have hsplit' := Finset.add_sum_erase Finset.univ p'.workOf (Finset.mem_univ i)
  omega

theorem workerStep_workOf (hh : (p.worker i).holds = true → p.list i ≠ [])
    (h : workerStep p i = some p') : p'.workOf i < p.workOf i := by
  cases workerStep_move h with
  | popLocked hpc | pop hpc =>
    have hl : 0 < (p.list i).length := List.length_pos_iff.mpr (hh (by rw [hpc]; rfl))
    simp only [Pool.workOf, Pool.setWorker_list, Pool.setList_list, Pool.setWorker_worker,
      Function.update_self, List.length_tail, WorkerPc.work, hpc]
    omega
  | lock hpc | emptyWait hpc | emptyUnlock hpc | waitBlock hpc | waitUnlock hpc | block hpc
  | relock hpc | unlock hpc | stay hpc | quit hpc | runFront hpc | lockPop hpc | sizeOne hpc
  | sizeMore hpc | unlockPopped hpc | unlockFirst hpc | uncount hpc | leave hpc =>
    simp [Pool.workOf, Pool.setWorker, Pool.setMutex, WorkerPc.work, hpc]

theorem workerStep_work (hh : Held p) (h : workerStep p i = some p') : p'.work < p.work := by
  have hlt := workerStep_workOf (hh i) h
  have hframe : ∀ j, j ≠ i → p'.workOf j = p.workOf j := by
    intro j hij
    obtain ⟨hworker, -, hlist⟩ := workerStep_frame h hij
    rw [Pool.workOf, Pool.workOf, hworker, hlist]
  have hsum := sum_workOf hframe
  rw [Pool.work, Pool.work, workerStep_submitter h]
  omega

theorem notifyOne_workOf (p : Pool n τ) (i : Fin n) :
    ∑ j, (p.notifyOne i).workOf j ≤ ∑ j, p.workOf j + 10 := by
  unfold Pool.notifyOne
  split
  · rename_i hblocked
    have hframe : ∀ j, j ≠ i → (p.setWorker i .relock).workOf j = p.workOf j := by
      intro j hij
      simp [Pool.workOf, Function.update_of_ne hij]
    have hself : (p.setWorker i .relock).workOf i = p.workOf i + 10 := by
      simp [Pool.workOf, WorkerPc.work, hblocked]
    have hsum := sum_workOf hframe
    omega
  · omega

theorem pushBack_workOf (p : Pool n τ) (i : Fin n) (t : τ) :
    ∑ j, (p.pushBack i t).workOf j = ∑ j, p.workOf j + 11 := by
  have hframe : ∀ j, j ≠ i → (p.pushBack i t).workOf j = p.workOf j := by
    intro j hij
    simp [Pool.workOf, Pool.pushBack, Function.update_of_ne hij]
  have hself : (p.pushBack i t).workOf i = p.workOf i + 11 := by
    simp only [Pool.workOf, Pool.pushBack, Pool.setList_list, Pool.setList_worker,
      Function.update_self, List.length_append, List.length_singleton]
    omega
  have hsum := sum_workOf hframe
  omega

theorem submitterStep_work (hd : p.submitter.destroys = false) (h : submitterStep p = some p') :
    p'.work < p.work := by
  unfold Pool.work
  cases submitterStep_move h with
  | @pushLocked t i hpc | @push t i hpc =>
    have hsum := pushBack_workOf p i t
    rw [hpc]
    show ∑ j, (p.pushBack i t).workOf j + _ < _
    simp only [SubmitterPc.work, Pool.setSubmitter_submitter]
    omega
  | @notify i hpc =>
    have hsum := notifyOne_workOf p i
    rw [hpc]
    show ∑ j, (p.notifyOne i).workOf j + _ < _
    simp only [SubmitterPc.work, Pool.setSubmitter_submitter]
    omega
  | threadId hpc | badThreadId hpc | lock hpc | sizeOne hpc | sizeMore hpc | unlockPushed hpc
  | unlockFirst hpc | count hpc =>
    simp [Pool.workOf, hpc, SubmitterPc.work, Pool.setSubmitter, Pool.setMutex]
  | store hpc | maxWorkercnt hpc | workercntZero hpc | workercntLeft hpc | notifyAll hpc
  | notifiedAll hpc =>
    rw [hpc] at hd
    cases hd

theorem emplaceBack_work {t : τ} (h : step p (.emplaceBack t) = some p') :
    p'.work = p.work + 28 := by
  cases step_move h with
  | emplaceBack hidle =>
    simp [Pool.work, Pool.workOf, hidle, SubmitterPc.work, Pool.setSubmitter]

end Work

/-! ## Rest -/

/-- Every worker sleeps, and nobody is in `emplace_back`. -/
structure Rested (p : Pool n τ) : Prop where
  worker : ∀ i, p.worker i = .blocked
  submitter : p.submitter = .idle

section Rest

variable {p : Pool n τ} {i : Fin n} {m k : Nat}

theorem workerStep_unowned (h : workerStep p i = none) : (p.worker i).owns = false := by
  cases hpc : p.worker i with
  | emptyTest | waitTest | sizeTest =>
    simp only [workerStep, hpc] at h
    split at h <;> cases h
  | block | unlock | popLocked | unlockPopped | unlockFirst =>
    simp only [workerStep, hpc] at h
    cases h
  | _ => rfl

theorem submitterStep_unowned (h : submitterStep p = none) : p.submitter.owned = none := by
  cases hpc : p.submitter with
  | sizeTest t i =>
    simp only [submitterStep, hpc] at h
    split at h <;> cases h
  | pushLocked | unlockPushed | unlockFirst =>
    simp only [submitterStep, hpc] at h
    cases h
  | _ => rfl

/-- Where nobody can move, every mutex is free. -/
theorem Owned.mutex_free (ho : Owned p) (hw : ∀ i, workerStep p i = none)
    (hs : submitterStep p = none) (i : Fin n) : p.mutex i = none := by
  cases hm : p.mutex i with
  | none => rfl
  | some o =>
    cases o with
    | worker =>
      have howns := ho.worker i hm
      rw [workerStep_unowned (hw i)] at howns
      cases howns
    | submitter =>
      have howned := ho.submitter i hm
      rw [submitterStep_unowned hs] at howned
      cases howned

theorem worker_blocked (hh : Held p) (hc : Counted p) (hm : p.mutex i = none)
    (h : workerStep p i = none) : p.worker i = .blocked := by
  have hleaves := hc.worker i
  cases hpc : p.worker i with
  | blocked => rfl
  | lock | relock | lockPop =>
    simp only [workerStep, hpc, hm, if_true] at h
    cases h
  | runFront =>
    have hl : p.list i ≠ [] := hh i (by rw [hpc]; rfl)
    simp only [workerStep, hpc] at h
    split at h
    · rename_i hnil
      exact absurd hnil hl
    · cases h
  | emptyTest | waitTest | taskcntTest | sizeTest =>
    simp only [workerStep, hpc] at h
    split at h <;> cases h
  | block | unlock | popLocked | unlockPopped | unlockFirst | pop | uncount =>
    simp only [workerStep, hpc] at h
    cases h
  | leave | exited =>
    rw [hpc] at hleaves
    cases hleaves

theorem submitter_idle (hc : Counted p) (hd : p.submitter.destroys = false)
    (hm : ∀ i, p.mutex i = none) (h : submitterStep p = none) : p.submitter = .idle := by
  cases hpc : p.submitter with
  | idle => rfl
  | badThreadId => exact absurd hpc hc.submitter
  | threadId =>
    simp only [submitterStep, hpc] at h
    split at h <;> cases h
  | lock t i =>
    simp only [submitterStep, hpc, hm i, if_true] at h
    cases h
  | sizeTest =>
    simp only [submitterStep, hpc] at h
    split at h <;> cases h
  | pushLocked | unlockPushed | unlockFirst | push | notify | count =>
    simp only [submitterStep, hpc] at h
    cases h
  | store | maxWorkercnt | workercntTest | notifyAll | join =>
    rw [hpc] at hd
    cases hd

end Rest

section Submitted

variable {p : Pool n Nat} {i : Fin n} {m k : Nat}

/-- A pool that has been given tasks rests with all workers asleep. -/
theorem Submitted.rested (hsub : Submitted p m) (hn : 0 < n) (hw : ∀ i, workerStep p i = none)
    (hs : submitterStep p = none) : Rested p := by
  obtain ⟨acts, hd, hrun, -⟩ := hsub.run
  have hdestroys := destroys_run hd hrun
  have hc := counted_run hn acts p hrun (stored_destroys hdestroys)
  have hfree := (owned_run hrun).mutex_free hw hs
  exact ⟨fun i => worker_blocked (held_run hrun) hc (hfree i) (hw i),
    submitter_idle hc hdestroys hfree hs⟩

/-- At rest every task has been run or is in a list. -/
theorem Submitted.ran_add_list (hsub : Submitted p m) (hn : 0 < n) (hr : Rested p) :
    ∑ i, (p.ran i : Multiset Nat) + ∑ i, (p.list i : Multiset Nat) =
      (List.range m : Multiset Nat) := by
  obtain ⟨acts, hd, hrun, hem⟩ := hsub.run
  obtain ⟨g, hg, rfl⟩ := Logged.run_pool acts hrun
  have hf := Logged.fifo_run acts hg
  have hknown := Logged.known_run hn acts hd g hg
  have htask : g.pool.submitter.task = 0 := by rw [hr.submitter]; rfl
  rw [hem, Logged.known, htask, add_zero] at hknown
  rw [← hknown, ← Finset.sum_add_distrib]
  refine Finset.sum_congr rfl fun i _ => ?_
  have hrunning : g.pool.running i = [] := by simp [Pool.running, hr.worker i, WorkerPc.hasRun]
  rw [hf.assigned i, hf.ran i, hrunning, List.append_nil, Multiset.coe_add]

/-- Of the tasks that have been given to it, those in its lists are the ones it has not run. -/
theorem Rested.ready_iff (hr : Rested p) (hsub : Submitted p m) (hn : 0 < n) :
    (∀ k < m, p.Ready k) ↔ ∀ i, p.list i = [] := by
  have hall := hsub.ran_add_list hn hr
  constructor
  · intro hready i
    rw [hsub.ran_eq hready] at hall
    have hnone : ∑ i, (p.list i : Multiset Nat) = 0 := by simpa using hall
    have hi := Finset.sum_eq_zero_iff.mp hnone i (Finset.mem_univ i)
    simpa using hi
  · intro hlist k hk
    have hnone : ∑ i, (p.list i : Multiset Nat) = 0 :=
      Finset.sum_eq_zero fun i _ => by rw [hlist i]; rfl
    rw [hnone, add_zero] at hall
    rw [ThreadPool.ready_iff, hall]
    simpa using hk

/-- A task is left where a worker has missed its wakeup. -/
theorem Rested.lost_iff (hr : Rested p) (i : Fin n) : LostWakeup p i ↔ p.list i ≠ [] := by
  constructor
  · rintro ⟨hl, -, -⟩
    exact hl
  · intro hl
    refine ⟨hl, hr.worker i, ?_⟩
    rintro (h | h)
    · rw [hr.submitter] at h
      cases h
    · rw [hr.submitter] at h
      cases h

end Submitted

end ThreadPool
end SimpleWeb
