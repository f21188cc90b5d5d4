import SimpleWeb.ThreadPool.Counter

/-!
# ThreadPool.History

The pool with what has been pushed to and popped from each list so far. The task a worker runs
stays at the head of its list until the worker pops it, so what was pushed is what was popped
followed by the list, and what was run is what was popped, and the head when it has been run
(`Fifo`).
-/

namespace SimpleWeb
namespace ThreadPool

variable {n : Nat} {τ : Type}

/-- The worker has run the head of its list and not popped it yet. -/
def WorkerPc.hasRun : WorkerPc → Bool
  | .lockPop | .sizeTest | .popLocked | .unlockFirst | .pop => true
  | _ => false

/-- The worker's next step is `list[i].pop_front()`. -/
def WorkerPc.pops : WorkerPc → Bool
  | .popLocked | .pop => true
  | _ => false

/-- The task `emplace_back` has not pushed yet -/
def SubmitterPc.task : SubmitterPc n τ → Multiset τ
  | .threadId t | .lock t _ | .sizeTest t _ | .pushLocked t _ | .unlockFirst t _ | .push t _ => {t}
  | _ => 0

/-- The push the submitter's next step makes, if it makes one -/
def SubmitterPc.pushOf : SubmitterPc n τ → Option (Fin n × τ)
  | .pushLocked t i | .push t i => some (i, t)
  | _ => none

structure Logged (n : Nat) (τ : Type) where
  pool : Pool n τ
  /-- the tasks pushed to each list, in order -/
  assigned : Fin n → List τ
  /-- the tasks popped from each list, in order -/
  popped : Fin n → List τ

namespace Logged

def init (n : Nat) (τ : Type) : Logged n τ where
  pool := ThreadPool.init n τ
  assigned := fun _ => []
  popped := fun _ => []

def assign (g : Logged n τ) : Act n τ → Fin n → List τ
  | .submitter =>
    match g.pool.submitter.pushOf with
    | some (i, t) => Function.update g.assigned i (g.assigned i ++ [t])
    | none => g.assigned
  | _ => g.assigned

def pop (g : Logged n τ) : Act n τ → Fin n → List τ
  | .worker i =>
    if (g.pool.worker i).pops then
      Function.update g.popped i (g.popped i ++ (g.pool.list i).take 1)
    else g.popped
  | _ => g.popped

def step (g : Logged n τ) (a : Act n τ) : Option (Logged n τ) :=
  (ThreadPool.step g.pool a).map fun s => { pool := s, assigned := g.assign a, popped := g.pop a }

end Logged

/-- The tasks given to `emplace_back` -/
def emplaced : List (Act n τ) → List τ := List.filterMap fun
  | .emplaceBack t => some t
  | _ => none

/-- The task worker `i` has run and not popped, as a list -/
def Pool.running (s : Pool n τ) (i : Fin n) : List τ :=
  if (s.worker i).hasRun then (s.list i).take 1 else []

structure Fifo (g : Logged n τ) : Prop where
  assigned : ∀ i, g.assigned i = g.popped i ++ g.pool.list i
  ran : ∀ i, g.pool.ran i = g.popped i ++ g.pool.running i

section Steps

variable {s s' : Pool n τ} {i j : Fin n}

theorem hasRun_holds {pc : WorkerPc} (h : pc.hasRun = true) : pc.holds = true := by
  cases pc <;> first | rfl | cases h

theorem workerStep_ran_frame (h : workerStep s i = some s') (hij : j ≠ i) : s'.ran j = s.ran j := by
  cases workerStep_move h with
  | runFront => exact Function.update_of_ne hij _ _
  | _ => rfl

/-- A worker takes nothing from its list but the head that it has run, and runs nothing but the
head. -/
theorem workerStep_history (h : workerStep s i = some s') :
    s.list i = (if (s.worker i).pops then (s.list i).take 1 else []) ++ s'.list i ∧
      ∃ r, s'.ran i = s.ran i ++ r ∧ s.running i ++ r =
        (if (s.worker i).pops then (s.list i).take 1 else []) ++ s'.running i := by
  cases workerStep_move h with
  | popLocked hpc | pop hpc =>
    refine ⟨?_, [], ?_, ?_⟩
    · simpa [hpc, WorkerPc.pops] using (List.take_append_drop 1 (s.list i)).symm
    · simp [Pool.setWorker, Pool.setList]
    · simp [Pool.running, hpc, WorkerPc.hasRun, WorkerPc.pops]
  | @runFront t _ hpc hl =>
    refine ⟨by simp [hpc, WorkerPc.pops], [t], ?_, ?_⟩
    · simp [Pool.setWorker]
    · simp [Pool.running, hpc, WorkerPc.hasRun, WorkerPc.pops, hl]
  | lock hpc | emptyWait hpc | emptyUnlock hpc | waitBlock hpc | waitUnlock hpc | block hpc
  | relock hpc | unlock hpc | stay hpc | quit hpc | lockPop hpc | sizeOne hpc | sizeMore hpc
  | unlockPopped hpc | unlockFirst hpc | uncount hpc | leave hpc =>
    refine ⟨by simp [hpc, WorkerPc.pops], [], ?_, ?_⟩
    · simp [Pool.setWorker, Pool.setMutex]
    · simp [Pool.running, hpc, WorkerPc.hasRun, WorkerPc.pops]

theorem submitterStep_hasRun (h : submitterStep s = some s') :
    (s'.worker j).hasRun = (s.worker j).hasRun := (submitterStep_woken h).keeps rfl

/-- Only workers run tasks. -/
theorem submitterStep_ran (h : submitterStep s = some s') : s'.ran = s.ran := by
  cases submitterStep_move h with
  | notify | notifyAll => exact Pool.notifyOne_ran _ _
  | _ => rfl

/-- The submitter pushes the task it has, or keeps it. -/
theorem submitterStep_history (h : submitterStep s = some s') :
    (s.submitter.pushOf = none ∧ s'.list = s.list ∧
        (s'.submitter.task = s.submitter.task ∨ s'.submitter = .badThreadId)) ∨
      ∃ i t, s.submitter.pushOf = some (i, t) ∧
        s'.list = Function.update s.list i (s.list i ++ [t]) ∧
        s.submitter.task = {t} ∧ s'.submitter.task = 0 := by
  cases submitterStep_move h with
  | pushLocked hpc | push hpc =>
    rw [hpc]
    exact .inr ⟨_, _, rfl, rfl, rfl, rfl⟩
  | badThreadId hpc =>
    rw [hpc]
    exact .inl ⟨rfl, rfl, .inr rfl⟩
  | notify hpc | notifyAll hpc =>
    rw [hpc]
    exact .inl ⟨rfl, Pool.notifyOne_list _ _, .inl rfl⟩
  | threadId hpc | lock hpc | sizeOne hpc | sizeMore hpc | unlockPushed hpc | unlockFirst hpc
  | count hpc | store hpc | maxWorkercnt hpc | workercntZero hpc | workercntLeft hpc
  | notifiedAll hpc =>
    rw [hpc]
    exact .inl ⟨rfl, rfl, .inl rfl⟩

/-- A push behind the task that is being run leaves it at the head. -/
theorem running_eq (hheld : (s.worker j).holds = true → s.list j ≠ [])
    (hrun : (s'.worker j).hasRun = (s.worker j).hasRun)
    (hlist : s'.list j = s.list j ∨ ∃ t, s'.list j = s.list j ++ [t]) :
    s'.running j = s.running j := by
  unfold Pool.running
  rw [hrun]
  split
  · rename_i hr
    rcases hlist with hlist | ⟨t, hlist⟩
    · rw [hlist]
    · obtain ⟨u, l, hl⟩ := List.exists_cons_of_ne_nil (hheld (hasRun_holds hr))
      rw [hlist, hl]
      rfl
  · rfl

end Steps

namespace Fifo

variable {g g' : Logged n τ} {i : Fin n}

theorem init : Fifo (Logged.init n τ) where
  assigned := by
    intro i
    rfl
  ran := by
    intro i
    rfl

/-- A step that touches neither list nor log. -/
theorem of_frame {s : Pool n τ} (hg : Fifo g) (hlist : s.list = g.pool.list)
    (hran : s.ran = g.pool.ran) (hrun : ∀ j, (s.worker j).hasRun = (g.pool.worker j).hasRun) :
    Fifo { g with pool := s } where
  assigned := by
    intro j
    change g.assigned j = g.popped j ++ s.list j
    rw [hlist]
    exact hg.assigned j
  ran := by
    intro j
    change s.ran j = g.popped j ++ s.running j
    rw [hran, hg.ran j, Pool.running, Pool.running, hrun j, hlist]

theorem submitter (hg : Fifo g) (hs : Held g.pool) (h : g.step .submitter = some g') :
    Fifo g' := by
  obtain ⟨s, hstep, rfl⟩ := Option.map_eq_some_iff.mp h
  have hrun : ∀ j, (s.worker j).hasRun = (g.pool.worker j).hasRun :=
    fun _ => submitterStep_hasRun hstep
  have hran : s.ran = g.pool.ran := submitterStep_ran hstep
  rcases submitterStep_history hstep with ⟨hnone, hlist, -⟩ | ⟨i, t, hsome, hlist, -, -⟩
  · have hassign : g.assign .submitter = g.assigned := by simp only [Logged.assign, hnone]
    rw [hassign]
    exact hg.of_frame hlist hran hrun
  · have hassign : g.assign .submitter = Function.update g.assigned i (g.assigned i ++ [t]) := by
      simp only [Logged.assign, hsome]
    rw [hassign]
    refine ⟨?_, ?_⟩
    · intro j
      change Function.update g.assigned i (g.assigned i ++ [t]) j = g.popped j ++ s.list j
      rw [hlist]
      by_cases hij : j = i
      · subst hij
        rw [Function.update_self, Function.update_self, hg.assigned j, List.append_assoc]
      · rw [Function.update_of_ne hij, Function.update_of_ne hij, hg.assigned j]
    · intro j
      change s.ran j = g.popped j ++ s.running j
      have hpush : s.list j = g.pool.list j ∨ ∃ u, s.list j = g.pool.list j ++ [u] := by
        rw [hlist]
        by_cases hij : j = i
        · subst hij
          exact .inr ⟨t, Function.update_self ..⟩
        · exact .inl (Function.update_of_ne hij ..)
      rw [hran, hg.ran j, running_eq (hs j) (hrun j) hpush]

theorem worker (hg : Fifo g) (h : g.step (.worker i) = some g') : Fifo g' := by
  obtain ⟨s, hstep, rfl⟩ := Option.map_eq_some_iff.mp h
  obtain ⟨hlist, r, hran, hrunning⟩ := workerStep_history hstep
  have hpop : g.pop (.worker i) = Function.update g.popped i
      (g.popped i ++ if (g.pool.worker i).pops then (g.pool.list i).take 1 else []) := by
    simp only [Logged.pop]
    split
    · rfl
    · rw [List.append_nil, Function.update_eq_self]
  rw [hpop]
  refine ⟨?_, ?_⟩
  · intro j
    change g.assigned j = Function.update g.popped i _ j ++ s.list j
    by_cases hij : j = i
    · subst hij
      rw [Function.update_self, List.append_assoc, ← hlist]
      exact hg.assigned j
    · rw [Function.update_of_ne hij, (workerStep_frame hstep hij).2.2]
      exact hg.assigned j
  · intro j
    change s.ran j = Function.update g.popped i _ j ++ s.running j
    by_cases hij : j = i
    · subst hij
      rw [Function.update_self, List.append_assoc, ← hrunning, ← List.append_assoc, ← hg.ran j]
      exact hran
    · obtain ⟨hworker, -, hl⟩ := workerStep_frame hstep hij
      rw [Function.update_of_ne hij, workerStep_ran_frame hstep hij, hg.ran j, Pool.running,
        Pool.running, hworker, hl]

theorem step {a : Act n τ} (hg : Fifo g) (hs : Held g.pool) (h : g.step a = some g') :
    Fifo g' := by
  cases a with
  | submitter => exact hg.submitter hs h
  | worker i => exact hg.worker h
  | emplaceBack t | destroy =>
    obtain ⟨s, hstep, rfl⟩ := Option.map_eq_some_iff.mp h
    cases step_move hstep
    exact hg.of_frame rfl rfl fun _ => rfl
  | wake i =>
    obtain ⟨s, hstep, rfl⟩ := Option.map_eq_some_iff.mp h
    cases step_move hstep with
    | wake hblocked =>
      exact hg.of_frame rfl rfl fun _ => (wake_woken hblocked).keeps (f := WorkerPc.hasRun) rfl

end Fifo

namespace Logged

variable {g g' : Logged n τ}

theorem step_pool {a : Act n τ} (h : g.step a = some g') :
    ThreadPool.step g.pool a = some g'.pool := by
  obtain ⟨s, hstep, rfl⟩ := Option.map_eq_some_iff.mp h
  exact hstep

/-- The log hinders no step: every run of the pool is logged. -/
theorem run_pool (acts : List (Act n τ)) {s : Pool n τ}
    (h : Lts.run ThreadPool.step (ThreadPool.init n τ) acts = some s) :
    ∃ g, Lts.run step (init n τ) acts = some g ∧ g.pool = s := by
  induction acts using List.reverseRecOn generalizing s with
  | nil =>
    cases h
    exact ⟨init n τ, rfl, rfl⟩
  | append_singleton acts a ih =>
    obtain ⟨t, ht, hs⟩ := Lts.run_concat_eq_some.mp h
    obtain ⟨g, hg, rfl⟩ := ih ht
    exact ⟨_, Lts.run_concat_eq_some.mpr ⟨g, hg, by rw [step, hs]; rfl⟩, rfl⟩

theorem pool_run {acts : List (Act n τ)} :
    ∀ {g}, Lts.run step (init n τ) acts = some g →
      Lts.run ThreadPool.step (ThreadPool.init n τ) acts = some g.pool := by
  induction acts using List.reverseRecOn with
  | nil =>
    intro g h
    cases h
    rfl
  | append_singleton acts a ih =>
    intro g h
    obtain ⟨f, hf, hg⟩ := Lts.run_concat_eq_some.mp h
    exact Lts.run_concat_eq_some.mpr ⟨f.pool, ih hf, step_pool hg⟩

/-- All tasks assigned so far, with the one that is not assigned yet -/
def known (g : Logged n τ) : Multiset τ :=
  ∑ i, (g.assigned i : Multiset τ) + g.pool.submitter.task

theorem sum_update (f : Fin n → List τ) (i : Fin n) (t : τ) :
    ∑ j, (Function.update f i (f i ++ [t]) j : Multiset τ) = ∑ j, (f j : Multiset τ) + {t} := by
  have hsplit : ∀ j, (Function.update f i (f i ++ [t]) j : Multiset τ) =
      (f j : Multiset τ) + if j = i then {t} else 0 := by
    intro j
    by_cases hij : j = i
    · subst hij
      rw [Function.update_self, if_pos rfl, ← Multiset.coe_add]
      rfl
    · simp [hij]
  rw [Finset.sum_congr rfl fun j _ => hsplit j, Finset.sum_add_distrib]
  simp

theorem known_step {a : Act n τ} (h : g.step a = some g')
    (hbad : g'.pool.submitter ≠ .badThreadId) : g'.known = g.known + emplaced [a] := by
  obtain ⟨s, hstep, rfl⟩ := Option.map_eq_some_iff.mp h
  cases step_move hstep with
  | submitter hstep =>
    rcases submitterStep_history hstep with ⟨hnone, -, htask⟩ | ⟨i, t, hsome, -, htask, htask'⟩
    · have htask := htask.resolve_right hbad
      simp only [known, assign, hnone, htask, emplaced, List.filterMap_cons, List.filterMap_nil]
      simp
    · simp only [known, assign, hsome, htask, htask', sum_update, emplaced, List.filterMap_cons,
        List.filterMap_nil]
      simp
  | emplaceBack hidle | destroy hidle =>
    simp [known, assign, hidle, SubmitterPc.task, emplaced]
  | worker hstep =>
    have hsub : s.submitter = g.pool.submitter := workerStep_submitter hstep
    simp [known, assign, hsub, emplaced]
  | wake => simp [known, assign, emplaced]

theorem fifo_run (acts : List (Act n τ)) {g : Logged n τ}
    (h : Lts.run step (init n τ) acts = some g) : Fifo g := by
  have hinv : Fifo g ∧ Held g.pool :=
    Lts.run_invariant (I := fun g => Fifo g ∧ Held g.pool)
      (fun _ _ _ hI hu => ⟨hI.1.step hI.2 hu, held_step hI.2 (step_pool hu)⟩)
      ⟨Fifo.init, held_init⟩ acts g h
  exact hinv.1

theorem known_run (hn : 0 < n) (acts : List (Act n τ)) :
    Act.destroy ∉ acts → ∀ g, Lts.run step (init n τ) acts = some g → g.known = emplaced acts := by
  induction acts using List.reverseRecOn with
  | nil =>
    intro _ g h
    cases h
    simp [known, init, ThreadPool.init, SubmitterPc.task, emplaced]
  | append_singleton acts a ih =>
    intro hd g h
    obtain ⟨f, hf, hg⟩ := Lts.run_concat_eq_some.mp h
    have hrun := pool_run h
    have hbad : g.pool.submitter ≠ .badThreadId :=
      (counted_run hn _ _ hrun (stored_destroys (destroys_run hd hrun))).submitter
    have hacts : Act.destroy ∉ acts := fun hmem => hd (List.mem_append_left _ hmem)
    rw [known_step hg hbad, ih hacts f hf]
    simp only [emplaced, List.filterMap_append, Multiset.coe_add]

end Logged

theorem Pool.running_prefix (s : Pool n τ) (i : Fin n) : s.running i <+: s.list i := by
  unfold Pool.running
  split
  · exact List.take_prefix _ _
  · exact List.nil_prefix

theorem Fifo.popped_prefix {g : Logged n τ} (hg : Fifo g) (i : Fin n) :
    g.popped i <+: g.pool.ran i := by
  rw [hg.ran i]
  exact List.prefix_append _ _

theorem Fifo.ran_prefix {g : Logged n τ} (hg : Fifo g) (i : Fin n) :
    g.pool.ran i <+: g.assigned i := by
  rw [hg.ran i, hg.assigned i]
  exact (List.prefix_append_right_inj _).mpr (g.pool.running_prefix i)

/-- No task is run more often than it was given to `emplace_back`. -/
theorem Logged.ran_le_known {g : Logged n τ} (hg : Fifo g) :
    ∑ i, (g.pool.ran i : Multiset τ) ≤ g.known :=
  calc ∑ i, (g.pool.ran i : Multiset τ)
      ≤ ∑ i, (g.assigned i : Multiset τ) :=
        Finset.sum_le_sum fun i _ => Multiset.coe_le.mpr (hg.ran_prefix i).sublist.subperm
    _ ≤ ∑ i, (g.assigned i : Multiset τ) + g.pool.submitter.task := Multiset.le_add_right _ _

/-- Every worker runs the tasks pushed to its list in their order, each at most once, and pops
them behind. -/
theorem ran_exactly_once (hn : 0 < n) (acts : List (Act n τ)) (hd : Act.destroy ∉ acts)
    (s : Pool n τ) (h : Lts.run step (init n τ) acts = some s) :
    ∃ g, Lts.run Logged.step (Logged.init n τ) acts = some g ∧ g.pool = s ∧
      (∀ i, g.assigned i = g.popped i ++ s.list i ∧ g.popped i <+: s.ran i ∧
        s.ran i <+: g.assigned i) ∧
      ∑ i, (g.assigned i : Multiset τ) + s.submitter.task = emplaced acts ∧
      ∑ i, (s.ran i : Multiset τ) ≤ emplaced acts := by
  obtain ⟨g, hg, rfl⟩ := Logged.run_pool acts h
  have hf := Logged.fifo_run acts hg
  have hknown : g.known = emplaced acts := Logged.known_run hn acts hd g hg
  refine ⟨g, hg, rfl, fun i => ⟨hf.assigned i, hf.popped_prefix i, hf.ran_prefix i⟩, hknown, ?_⟩
  exact hknown ▸ Logged.ran_le_known hf

/-- Two workers, a task each: worker 1 has run its task and not popped it. -/
def twoWorkers : List (Act 2 Nat) :=
  [Act.emplaceBack 5] ++ List.replicate 7 Act.submitter ++
    [Act.emplaceBack 6] ++ List.replicate 7 Act.submitter ++ List.replicate 5 (Act.worker 1)

theorem ran_exactly_once_two :
    ∃ g, Lts.run Logged.step (Logged.init 2 Nat) twoWorkers = some g ∧
      g.pool.ran 1 = [6] ∧ g.assigned 1 = g.popped 1 ++ g.pool.list 1 ∧ g.popped 1 <+: [6] ∧
      ∑ i, (g.assigned i : Multiset Nat) + g.pool.submitter.task = {5, 6} := by
  have hrun : (Lts.run step (init 2 Nat) twoWorkers).map (fun s => s.ran 1) = some [6] := by
    decide +kernel
  obtain ⟨s, hs, hran⟩ := Option.map_eq_some_iff.mp hrun
  obtain ⟨g, hg, rfl, hlists, hassigned, -⟩ :=
    ran_exactly_once (by decide) twoWorkers (by simp [twoWorkers]) s hs
  obtain ⟨hlist, hpopped, -⟩ := hlists 1
  refine ⟨g, hg, hran, hlist, hran ▸ hpopped, ?_⟩
  rw [hassigned]
  decide

end ThreadPool
end SimpleWeb
