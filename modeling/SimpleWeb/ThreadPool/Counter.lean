import SimpleWeb.ThreadPool.Pool

/-!
# ThreadPool.Counter

`taskcnt` is counted up behind the push and counted down behind the pop, so it is not the number
of queued tasks, but differs from it by the tasks that are between the two (`Counted`). Until the
destructor starts this keeps it apart from `-1` wherever a worker holds a task
(`taskcnt_nonneg`, `taskcnt_ne`).
-/

namespace SimpleWeb
namespace ThreadPool

variable {n : Nat} {τ : Type}

/-- The worker has found its list non-empty and has not popped since. -/
def WorkerPc.holds : WorkerPc → Bool
  | .unlock | .taskcntTest | .runFront | .lockPop | .sizeTest | .popLocked | .unlockFirst
  | .pop => true
  | _ => false

/-- The worker has popped and not counted down yet. -/
def WorkerPc.popped : WorkerPc → Bool
  | .unlockPopped | .uncount => true
  | _ => false

/-- The worker is on its way out. -/
def WorkerPc.leaves : WorkerPc → Bool
  | .leave | .exited => true
  | _ => false

/-- The submitter has pushed and not counted up yet. -/
def SubmitterPc.pushed : SubmitterPc n τ → Bool
  | .unlockPushed _ | .notify _ | .count => true
  | _ => false

/-- The submitter is in the destructor. -/
def SubmitterPc.destroys : SubmitterPc n τ → Bool
  | .store | .maxWorkercnt | .workercntTest _ | .notifyAll _ _ | .join => true
  | _ => false

/-- The destructor has stored `-1`. -/
def SubmitterPc.stored : SubmitterPc n τ → Bool
  | .maxWorkercnt | .workercntTest _ | .notifyAll _ _ | .join => true
  | _ => false

/-- The tasks of worker `i` that it has not counted down -/
def Pool.pending (s : Pool n τ) (i : Fin n) : Int :=
  (s.list i).length + (s.worker i).popped.toNat

@[simp] theorem Pool.pending_setSubmitter (s : Pool n τ) (pc : SubmitterPc n τ) (i : Fin n) :
    (s.setSubmitter pc).pending i = s.pending i := rfl

@[simp] theorem Pool.pushBack_taskcnt (s : Pool n τ) (i : Fin n) (t : τ) :
    (s.pushBack i t).taskcnt = s.taskcnt := rfl

/-- A worker that holds a task has a task in its list. -/
def Held (s : Pool n τ) : Prop := ∀ i, (s.worker i).holds = true → s.list i ≠ []

structure Counted (s : Pool n τ) : Prop where
  workercnt : s.workercnt = n
  taskcnt : s.taskcnt + s.submitter.pushed.toNat = ∑ i, s.pending i
  worker : ∀ i, (s.worker i).leaves = false
  submitter : s.submitter ≠ .badThreadId

section Steps

variable {s s' : Pool n τ} {i j : Fin n}

/-! ## Tasks in hand -/

theorem workerStep_held (hs : (s.worker i).holds = true → s.list i ≠ [])
    (h : workerStep s i = some s') (hi : (s'.worker i).holds = true) : s'.list i ≠ [] := by
  cases workerStep_move h with
  | emptyUnlock _ hl | waitUnlock _ hl => exact hl
  | unlock hpc | stay hpc | quit hpc | runFront hpc | lockPop hpc | sizeOne hpc | sizeMore hpc
  | unlockFirst hpc =>
    have hl : s.list i ≠ [] := hs (by rw [hpc]; rfl)
    exact hl
  | _ => simp [WorkerPc.holds] at hi

theorem submitterStep_holds (h : submitterStep s = some s') :
    (s'.worker j).holds = (s.worker j).holds := (submitterStep_woken h).keeps rfl

/-- The submitter empties no list. -/
theorem submitterStep_nonempty (h : submitterStep s = some s') (hl : s.list j ≠ []) :
    s'.list j ≠ [] := by
  rcases submitterStep_list h with hlist | ⟨t, i, -, hlist⟩
  · rw [hlist]
    exact hl
  · rw [hlist]
    by_cases hij : j = i
    · subst hij
      simp
    · rwa [Function.update_of_ne hij]

theorem held_init : Held (init n τ) := by
  intro i hi
  cases hi

theorem held_step {a : Act n τ} (hs : Held s) (h : step s a = some s') : Held s' := by
  cases step_move h with
  | emplaceBack | destroy => exact hs
  | submitter h =>
    intro j hj
    rw [submitterStep_holds h] at hj
    exact submitterStep_nonempty h (hs j hj)
  | @worker i _ h =>
    intro j hj
    by_cases hij : j = i
    · subst hij
      exact workerStep_held (hs j) h hj
    · obtain ⟨hworker, -, hlist⟩ := workerStep_frame h hij
      rw [hlist]
      exact hs j (hworker ▸ hj)
  | wake hblocked =>
    intro j hj
    rw [(wake_woken hblocked).keeps (f := WorkerPc.holds) rfl] at hj
    exact hs j hj

theorem held_run {acts : List (Act n τ)} (h : Lts.run step (init n τ) acts = some s) : Held s :=
  Lts.run_invariant (fun _ _ _ hs hu => held_step hs hu) held_init acts s h

/-! ## The counter -/

/-- A worker moves its pending tasks and `taskcnt` together. -/
theorem workerStep_pending (hs : (s.worker i).holds = true → s.list i ≠ [])
    (h : workerStep s i = some s') : s'.pending i - s'.taskcnt = s.pending i - s.taskcnt := by
  cases workerStep_move h with
  | popLocked hpc | pop hpc =>
    have hl : s.list i ≠ [] := hs (by rw [hpc]; rfl)
    have hpos : 0 < (s.list i).length := List.length_pos_iff.mpr hl
    simp only [Pool.pending, Pool.setWorker_list, Pool.setList_list, Pool.setWorker_worker,
      Function.update_self, List.length_tail, WorkerPc.popped, hpc, Bool.toNat_true,
      Bool.toNat_false, Pool.setWorker_taskcnt, Pool.setList_taskcnt]
    omega
  | uncount hpc =>
    simp only [Pool.pending, Pool.setWorker_list, Pool.setWorker_worker, Function.update_self,
      WorkerPc.popped, hpc, Bool.toNat_true, Bool.toNat_false, Pool.setWorker_taskcnt]
    omega
  | lock hpc | emptyWait hpc | emptyUnlock hpc | waitBlock hpc | waitUnlock hpc | block hpc
  | relock hpc | unlock hpc | stay hpc | quit hpc | runFront hpc | lockPop hpc | sizeOne hpc
  | sizeMore hpc | unlockPopped hpc | unlockFirst hpc | leave hpc =>
    simp [Pool.pending, Pool.setWorker, Pool.setMutex, WorkerPc.popped, hpc]

theorem workerStep_leaves (h : workerStep s i = some s') (hl : (s.worker i).leaves = false) :
    s'.workercnt = s.workercnt ∧
      ((s'.worker i).leaves = true → s.worker i = .taskcntTest ∧ s.taskcnt = -1) := by
  cases workerStep_move h with
  | leave hpc =>
    rw [hpc] at hl
    cases hl
  | quit hpc ht => exact ⟨rfl, fun _ => ⟨hpc, ht⟩⟩
  | _ => exact ⟨rfl, by simp [WorkerPc.leaves]⟩

/-- A sum over the workers when only worker `i` has changed. -/
theorem sum_frame {f g : Fin n → Int} (h : ∀ j, j ≠ i → g j = f j) :
    ∑ j, g j = ∑ j, f j + (g i - f i) := by
  have hdiff : ∑ j, (g j - f j) = g i - f i := by
    refine Finset.sum_eq_single i ?_ (fun hi => absurd (Finset.mem_univ i) hi)
    intro j _ hij
    rw [h j hij, sub_self]
  rw [Finset.sum_sub_distrib] at hdiff
  omega

theorem sum_pending_pushBack (s : Pool n τ) (i : Fin n) (t : τ) :
    ∑ j, (s.pushBack i t).pending j = ∑ j, s.pending j + 1 := by
  have hframe : ∀ j, j ≠ i → (s.pushBack i t).pending j = s.pending j := by
    intro j hij
    simp [Pool.pending, Pool.pushBack, Function.update_of_ne hij]
  have hpending : (s.pushBack i t).pending i = s.pending i + 1 := by
    simp only [Pool.pending, Pool.pushBack, Pool.setList_list, Pool.setList_worker,
      Function.update_self, List.length_append, List.length_singleton]
    omega
  rw [sum_frame hframe, hpending]
  omega

theorem Pool.pending_nonneg (s : Pool n τ) (i : Fin n) : 0 ≤ s.pending i := by
  unfold Pool.pending
  omega

/-- A worker that holds a task sees at least that task counted, or about to be. -/
theorem Counted.pos_of_mem (hc : Counted s) (hl : s.list i ≠ []) :
    0 < s.taskcnt + s.submitter.pushed.toNat := by
  have hle : s.pending i ≤ ∑ j, s.pending j :=
    Finset.single_le_sum (fun j _ => s.pending_nonneg j) (Finset.mem_univ i)
  have hpos : 0 < (s.list i).length := List.length_pos_iff.mpr hl
  have hpending : s.pending i = (s.list i).length + (s.worker i).popped.toNat := rfl
  rw [hc.taskcnt]
  omega

theorem Counted.taskcnt_nonneg (hc : Counted s) (hp : s.submitter.pushed = false) :
    0 ≤ s.taskcnt := by
  have hsum : 0 ≤ ∑ j, s.pending j := Finset.sum_nonneg (fun j _ => s.pending_nonneg j)
  rw [← hc.taskcnt, hp] at hsum
  simpa using hsum

theorem Counted.taskcnt_ne (hc : Counted s) (hl : s.list i ≠ []) : s.taskcnt ≠ -1 := by
  have hpos := hc.pos_of_mem hl
  have hle : s.submitter.pushed.toNat ≤ 1 := Bool.toNat_le _
  omega

theorem Counted.threadId (hc : Counted s) (hn : 0 < n) (hp : s.submitter.pushed = false) :
    ∃ i, s.threadId = some i := by
  have hpos : (0 : Int) < s.workercnt := by
    rw [hc.workercnt]
    exact_mod_cast hn
  have hnonneg := hc.taskcnt_nonneg hp
  have h0 : 0 ≤ s.taskcnt.tmod s.workercnt := Int.tmod_nonneg _ hnonneg
  have hlt : s.taskcnt.tmod s.workercnt < n := by
    have := Int.tmod_lt_of_pos s.taskcnt hpos
    rwa [hc.workercnt] at this ⊢
  have hindex : 0 ≤ s.taskcnt.tmod s.workercnt ∧ (s.taskcnt.tmod s.workercnt).toNat < n :=
    ⟨h0, by omega⟩
  exact ⟨_, dif_pos hindex⟩

theorem counted_init : Counted (init n τ) where
  workercnt := rfl
  taskcnt := by simp [init, SubmitterPc.pushed, Pool.pending, WorkerPc.popped]
  worker := by
    intro i
    rfl
  submitter := by simp [init]

theorem workerStep_counted (hc : Counted s) (hs : Held s) (h : workerStep s i = some s') :
    Counted s' where
  workercnt := by
    rw [(workerStep_leaves h (hc.worker i)).1, hc.workercnt]
  taskcnt := by
    have hframe : ∀ j, j ≠ i → s'.pending j = s.pending j := by
      intro j hij
      obtain ⟨hworker, -, hlist⟩ := workerStep_frame h hij
      rw [Pool.pending, Pool.pending, hworker, hlist]
    have hpending := workerStep_pending (hs i) h
    have htaskcnt := hc.taskcnt
    rw [sum_frame hframe, workerStep_submitter h]
    omega
  worker := by
    intro j
    by_cases hij : j = i
    · subst hij
      by_contra hl
      obtain ⟨hpc, htaskcnt⟩ := (workerStep_leaves h (hc.worker j)).2 (by simpa using hl)
      exact hc.taskcnt_ne (hs j (by rw [hpc]; rfl)) htaskcnt
    · rw [(workerStep_frame h hij).1]
      exact hc.worker j
  submitter := by
    rw [workerStep_submitter h]
    exact hc.submitter

theorem pending_congr (hlist : s'.list = s.list) (hw : (s.worker j).Woken (s'.worker j)) :
    s'.pending j = s.pending j := by
  rw [Pool.pending, Pool.pending, hlist, hw.keeps (f := WorkerPc.popped) rfl]

theorem submitterStep_destroys (h : submitterStep s = some s') :
    s'.submitter.destroys = s.submitter.destroys ∧
      (s.submitter.stored = true → s'.submitter.stored = true) := by
  cases submitterStep_move h with
  | threadId hpc | badThreadId hpc | lock hpc | sizeOne hpc | sizeMore hpc | pushLocked hpc
  | unlockPushed hpc | unlockFirst hpc | push hpc | notify hpc | count hpc =>
    rw [hpc]
    exact ⟨rfl, fun hst => by cases hst⟩
  | store hpc | maxWorkercnt hpc | workercntZero hpc | workercntLeft hpc | notifyAll hpc
  | notifiedAll hpc =>
    rw [hpc]
    exact ⟨rfl, fun _ => rfl⟩

/-- What `emplace_back` does to the counters, once it has a thread id. -/
theorem submitterStep_taskcnt (h : submitterStep s = some s')
    (hst : s'.submitter.stored = false)
    (hi : ∀ t, s.submitter = .threadId t → ∃ i, s.threadId = some i) :
    s'.submitter ≠ .badThreadId ∧ s'.workercnt = s.workercnt ∧
      ∑ i, s'.pending i - (s'.taskcnt + s'.submitter.pushed.toNat) =
        ∑ i, s.pending i - (s.taskcnt + s.submitter.pushed.toNat) := by
  have hsame : s'.list = s.list → ∑ i, s'.pending i = ∑ i, s.pending i :=
    fun hlist => Finset.sum_congr rfl fun _ _ => pending_congr hlist (submitterStep_woken h)
  cases submitterStep_move h with
  | badThreadId hpc hnone =>
    obtain ⟨i, hti⟩ := hi _ hpc
    rw [hnone] at hti
    cases hti
  | threadId hpc | lock hpc | sizeOne hpc | sizeMore hpc | unlockPushed hpc | unlockFirst hpc =>
    exact ⟨by simp, rfl, by rw [hsame rfl, hpc]; rfl⟩
  | @pushLocked t i hpc | @push t i hpc =>
    refine ⟨by simp, rfl, ?_⟩
    have hsum := sum_pending_pushBack s i t
    simp only [Pool.pending_setSubmitter, hsum, Pool.setSubmitter_submitter, SubmitterPc.pushed,
      Pool.setSubmitter_taskcnt, Pool.pushBack_taskcnt, Bool.toNat_true, Bool.toNat_false, hpc]
    omega
  | notify hpc =>
    refine ⟨by simp, by simp [Pool.setSubmitter], ?_⟩
    rw [hsame (by simp), hpc]
    simp [SubmitterPc.pushed]
  | count hpc =>
    refine ⟨by simp, rfl, ?_⟩
    rw [hsame rfl, hpc]
    simp [Pool.setSubmitter, SubmitterPc.pushed]
  | store | maxWorkercnt | workercntZero | workercntLeft | notifyAll | notifiedAll => cases hst

theorem submitterStep_counted (hc : Counted s) (hn : 0 < n) (h : submitterStep s = some s')
    (hst : s'.submitter.stored = false) : Counted s' := by
  have hindex : ∀ t, s.submitter = .threadId t → ∃ i, s.threadId = some i :=
    fun t ht => hc.threadId hn (by rw [ht]; rfl)
  obtain ⟨hgood, hworkercnt, htaskcnt⟩ := submitterStep_taskcnt h hst hindex
  exact {
    workercnt := hworkercnt.trans hc.workercnt
    taskcnt := by
      have hs := hc.taskcnt
      omega
    worker := by
      intro j
      rw [(submitterStep_woken h).keeps (f := WorkerPc.leaves) rfl]
      exact hc.worker j
    submitter := hgood }

theorem counted_step {a : Act n τ} (hc : Counted s) (hs : Held s) (hn : 0 < n)
    (h : step s a = some s') (hst : s'.submitter.stored = false) : Counted s' := by
  cases step_move h with
  | emplaceBack hidle | destroy hidle =>
    have htaskcnt := hc.taskcnt
    rw [hidle] at htaskcnt
    exact ⟨hc.workercnt, htaskcnt, hc.worker, by simp⟩
  | submitter h => exact submitterStep_counted hc hn h hst
  | worker h => exact workerStep_counted hc hs h
  | @wake i hblocked =>
    have hpending : ∀ j, (s.setWorker i .relock).pending j = s.pending j :=
      fun _ => pending_congr rfl (wake_woken hblocked)
    refine ⟨hc.workercnt, ?_, ?_, hc.submitter⟩
    · exact hc.taskcnt.trans (Finset.sum_congr rfl fun j _ => (hpending j).symm)
    · intro j
      rw [(wake_woken hblocked).keeps (f := WorkerPc.leaves) rfl]
      exact hc.worker j

/-- The destructor does not take its store back. -/
theorem stored_step {a : Act n τ} (h : step s a = some s') (hst : s.submitter.stored = true) :
    s'.submitter.stored = true := by
  cases step_move h with
  | emplaceBack hidle | destroy hidle =>
    rw [hidle] at hst
    cases hst
  | submitter h => exact (submitterStep_destroys h).2 hst
  | worker h =>
    rw [workerStep_submitter h]
    exact hst
  | wake => exact hst

theorem destroys_step {a : Act n τ} (h : step s a = some s') (ha : a ≠ .destroy)
    (hd : s.submitter.destroys = false) : s'.submitter.destroys = false := by
  cases step_move h with
  | emplaceBack => rfl
  | destroy => exact absurd rfl ha
  | submitter h => rw [(submitterStep_destroys h).1, hd]
  | worker h => rw [workerStep_submitter h, hd]
  | wake => exact hd

end Steps

theorem stored_destroys {pc : SubmitterPc n τ} (h : pc.destroys = false) : pc.stored = false := by
  cases pc <;> first | rfl | cases h

/-- Until the destructor stores `-1` the counter is kept. -/
theorem counted_run (hn : 0 < n) (acts : List (Act n τ)) :
    ∀ s, Lts.run step (init n τ) acts = some s → s.submitter.stored = false → Counted s := by
  induction acts using List.reverseRecOn with
  | nil =>
    intro s h _
    cases h
    exact counted_init
  | append_singleton acts a ih =>
    intro s h hst
    obtain ⟨t, ht, hs⟩ := Lts.run_concat_eq_some.mp h
    have hbefore : t.submitter.stored = false := by
      by_contra htrue
      rw [stored_step hs (by simpa using htrue)] at hst
      cases hst
    exact counted_step (ih t ht hbefore) (held_run ht) hn hs hst

/-- A run without a destructor stores no `-1`. -/
theorem destroys_run {acts : List (Act n τ)} (hd : Act.destroy ∉ acts) {s : Pool n τ}
    (h : Lts.run step (init n τ) acts = some s) : s.submitter.destroys = false := by
  have halong : Lts.Along step (fun _ a => a ≠ Act.destroy) (init n τ) acts := by
    rintro pre a t u hpre - - rfl
    exact hd (hpre.subset (by simp))
  exact halong.invariant (I := fun s => s.submitter.destroys = false)
    (fun _ _ _ hI ha hu => destroys_step hu ha hI) rfl acts s h

/-- `emplace_back` reads a valid thread id, and a worker with a task does not read `-1`, so that
no worker leaves. -/
theorem taskcnt_signals (hn : 0 < n) (acts : List (Act n τ)) (hd : Act.destroy ∉ acts)
    (s : Pool n τ) (h : Lts.run step (init n τ) acts = some s) :
    (∀ t, s.submitter = .threadId t → 0 ≤ s.taskcnt ∧ ∃ i, s.threadId = some i) ∧
      s.submitter ≠ .badThreadId ∧
      (∀ i, (s.worker i).holds = true → s.list i ≠ [] ∧ s.taskcnt ≠ -1) ∧
      (∀ i, s.worker i ≠ .leave ∧ s.worker i ≠ .exited) ∧ s.workercnt = n := by
  have hc := counted_run hn acts s h (stored_destroys (destroys_run hd h))
  have hs := held_run h
  refine ⟨?_, hc.submitter, ?_, ?_, hc.workercnt⟩
  · intro t ht
    have hp : s.submitter.pushed = false := by rw [ht]; rfl
    exact ⟨hc.taskcnt_nonneg hp, hc.threadId hn hp⟩
  · intro i hi
    exact ⟨hs i hi, hc.taskcnt_ne (hs i hi)⟩
  · intro i
    have hleaves := hc.worker i
    constructor
    · intro hpc
      rw [hpc] at hleaves
      cases hleaves
    · intro hpc
      rw [hpc] at hleaves
      cases hleaves

/-- A worker that runs its task before the submitter has counted it: `taskcnt` falls to `-1`. -/
def fastSchedule : List (Act 3 Nat) :=
  [Act.emplaceBack 0] ++ List.replicate 5 Act.submitter ++ List.replicate 10 (Act.worker 0)

theorem taskcnt_signals_fast :
    ∃ s, Lts.run step (init 3 Nat) fastSchedule = some s ∧ s.taskcnt = -1 ∧ s.ran 0 = [0] ∧
      (∀ i, s.worker i ≠ .leave ∧ s.worker i ≠ .exited) ∧ s.workercnt = 3 := by
  have hrun : (Lts.run step (init 3 Nat) fastSchedule).map (fun s => (s.taskcnt, s.ran 0)) =
      some (-1, [0]) := by decide +kernel
  obtain ⟨s, hs, heq⟩ := Option.map_eq_some_iff.mp hrun
  simp only [Prod.mk.injEq] at heq
  obtain ⟨-, -, -, hstay, hworkercnt⟩ :=
    taskcnt_signals (by decide) fastSchedule (by simp [fastSchedule]) s hs
  exact ⟨s, hs, heq.1, heq.2, hstay, hworkercnt⟩

end ThreadPool
end SimpleWeb
