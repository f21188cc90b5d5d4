import SimpleWeb.Reactor
import SimpleWeb.ThreadPool.Rest

/-!
# SimpleWeb.BatchEnd

The end of a batch. Without events and spurious wakeups the event loop and its pool take 30 steps
for each event of the batch at most, and three more (`work_epollWait`), whatever the order. Then
the loop waits for the next batch, or it waits for a task that its worker sleeps on: the one way in
which the server stops serving is a lost wakeup (`batch_ends`).
-/

namespace SimpleWeb

open ThreadPool

variable {n : Nat} {τ : Type}

namespace Reactor

/-- A step of the loop or of a worker. The kernel gives no batch and wakes nobody. -/
def Unaided : Act n τ → Prop
  | .loop | .write _ | .worker _ => True
  | .epollWait _ | .wake _ => False

/-- What the loop has left to do itself -/
def loopWork (s : Reactor n τ) : Nat :=
  match s.pc with
  | .emplaceBack evs => 30 * evs.length + 3 + (s.tasks.length - s.first)
  | .get k => 2 + (s.tasks.length - k)
  | .write => 1
  | .epollWait | .thrown => 0

/-- Steps of the loop and of the pool until they rest -/
def work (s : Reactor n τ) : Nat := s.pool.work + s.loopWork

/-- Outside of the first loop nobody is in `emplace_back`. -/
def Calm (s : Reactor n τ) : Prop := (∃ evs, s.pc = .emplaceBack evs) ∨ s.pool.submitter = .idle

/-- No notification is spent on a worker that has found its list empty and not blocked yet. -/
def Heard (s : Reactor n τ) : Act n τ → Prop
  | .loop => NotifyHeard s.pool .submitter
  | _ => True

section Steps

variable {hs : Handlers τ} {info : Bool} {s s' : Reactor n τ} {a : Act n τ}

theorem flush_pool (s : Reactor n τ) (good : Bool) : (s.flush info good).pool = s.pool := by
  unfold flush
  split <;> rfl

theorem Inv.submitterStep_work {p : Pool n Nat} (hI : s.Inv info)
    (h : submitterStep s.pool = some p) : p.work < s.pool.work := by
  obtain ⟨acts, hd, hrun, -⟩ := hI.submitted.run
  exact ThreadPool.submitterStep_work (destroys_run hd hrun) h

theorem Inv.workerStep_work {i : Fin n} {p : Pool n Nat} (hI : s.Inv info)
    (h : workerStep s.pool i = some p) : p.work < s.pool.work := by
  obtain ⟨acts, -, hrun, -⟩ := hI.submitted.run
  exact ThreadPool.workerStep_work (held_run hrun) h

/-- Whichever of them moves, there is less left to do. -/
theorem step_work (hI : s.Inv info) (ha : Unaided a) (h : step hs info s a = some s') :
    s'.work < s.work := by
  unfold work
  cases step_move h with
  | epollWait | wake => exact absurd ha id
  | @emplaceBack ev evs p hpc hp =>
    have hwork := emplaceBack_work hp
    simp only [loopWork, hpc, List.length_append, List.length_cons, List.length_nil]
    omega
  | submitter hpc hp =>
    have hlt := hI.submitterStep_work hp
    simp only [loopWork, hpc]
    omega
  | emplaced hpc _ =>
    simp only [loopWork, hpc, List.length_nil]
    omega
  | @get k ev hpc hev _ _ =>
    obtain ⟨hlt, -⟩ := List.getElem?_eq_some_iff.mp hev
    simp only [loopWork, hpc]
    omega
  | rethrow hpc | got hpc =>
    simp only [loopWork, hpc]
    omega
  | @write good hpc =>
    have hafter : (s.flush info good).loopWork = 0 := by
      unfold flush
      split <;> rfl
    rw [hafter, flush_pool]
    simp only [loopWork, hpc]
    omega
  | worker hp =>
    have hlt := hI.workerStep_work hp
    exact Nat.add_lt_add_right hlt _

/-- What a batch is to begin with -/
theorem work_epollWait {evs : List τ} (h : step hs info s (.epollWait evs) = some s') :
    s'.work = s.work + 30 * evs.length + 3 := by
  cases step_move h with
  | epollWait hpc =>
    simp only [work, loopWork, hpc]
    omega

theorem init_calm : (init n τ).Calm := .inr rfl

theorem step_calm (hc : s.Calm) (h : step hs info s a = some s') : s'.Calm := by
  have hidle : (∀ evs, s.pc ≠ .emplaceBack evs) → s.pool.submitter = .idle :=
    fun hpc => hc.resolve_left fun ⟨evs, he⟩ => hpc evs he
  cases step_move h with
  | epollWait | emplaceBack => exact .inl ⟨_, rfl⟩
  | submitter hpc => exact .inl ⟨_, hpc⟩
  | emplaced _ hsub => exact .inr hsub
  | get hpc | rethrow hpc | got hpc => exact .inr (hidle (by simp [hpc]))
  | @write good hpc =>
    refine .inr ?_
    rw [flush_pool]
    exact hidle (by simp [hpc])
  | worker hp =>
    refine hc.imp_right fun hsub => ?_
    exact (workerStep_submitter hp).trans hsub
  | wake hp =>
    refine hc.imp_right fun hsub => ?_
    cases ThreadPool.step_move hp
    exact hsub

theorem step_expected (he : Expected s.pool) (ha : s.Heard a) (h : step hs info s a = some s') :
    Expected s'.pool := by
  cases step_move h with
  | emplaceBack _ hp => exact expected_of_heard (a := .emplaceBack _) he trivial hp
  | submitter _ hp => exact expected_of_heard (a := .submitter) he ha hp
  | worker hp => exact expected_of_heard (a := .worker _) he trivial hp
  | wake hp => exact expected_of_heard (a := .wake _) he trivial hp
  | write =>
    rw [flush_pool]
    exact he
  | _ => exact he

end Steps

/-! ## At rest -/

/-- What holds of the loop as long as its handlers return -/
structure Steady (hs : Handlers τ) (info : Bool) (s : Reactor n τ) : Prop where
  inv : s.Inv info
  returning : s.Returning hs
  calm : s.Calm

section Rest

variable {hs : Handlers τ} {info : Bool} {s s' : Reactor n τ} {a : Act n τ}

theorem step_steady (h : s.Steady hs info) (ha : Returns hs a)
    (hstep : step hs info s a = some s') :
    s'.Steady hs info :=
  ⟨step_inv h.inv hstep, step_returning h.returning ha hstep, step_calm h.calm hstep⟩

theorem run_steady {acts : List (Act n τ)} (hret : ∀ a ∈ acts, Returns hs a)
    (h : Lts.run (step hs info) (init n τ) acts = some s) : s.Steady hs info :=
  Lts.run_invariant_of (fun _ _ _ hI ha hu => step_steady hI ha hu)
    ⟨init_inv info, init_returning hs, init_calm⟩ acts hret s h

theorem Unaided.returns (h : Unaided a) : Returns hs a := by
  cases a with
  | epollWait => exact absurd h id
  | _ => trivial

/-- The pool rests with the loop. -/
theorem Steady.rested (h : s.Steady hs info) (hn : 0 < n)
    (hrest : Lts.Resting (step hs info) Unaided s) : Rested s.pool := by
  have hworker : ∀ i, workerStep s.pool i = none := by
    intro i
    exact Option.map_eq_none_iff.mp (hrest (.worker i) trivial)
  refine h.inv.submitted.rested hn hworker ?_
  by_cases hidle : s.pool.submitter = .idle
  · simp only [submitterStep, hidle]
  · obtain ⟨evs, hpc⟩ := h.calm.resolve_right hidle
    have hloop : loopStep hs s = none := hrest .loop trivial
    simp only [loopStep, hpc] at hloop
    exact Option.map_eq_none_iff.mp hloop

/-- The loop waits for events, or for a task that is not run. -/
theorem Steady.rest_cases (h : s.Steady hs info) (hn : 0 < n)
    (hrest : Lts.Resting (step hs info) Unaided s) :
    s.pc = .epollWait ∨ s.pc ≠ .epollWait ∧ ∃ k < s.tasks.length, ¬ s.pool.Ready k := by
  have hidle := (h.rested hn hrest).submitter
  have hloop : loopStep hs s = none := hrest .loop trivial
  cases hpc : s.pc with
  | epollWait => exact .inl rfl
  | emplaceBack evs =>
    simp only [loopStep, hpc, hidle] at hloop
    cases evs with
    | nil => cases hloop
    | cons ev evs =>
      have hnone := Option.map_eq_none_iff.mp hloop
      simp only [ThreadPool.step, hidle] at hnone
      cases hnone
  | get k =>
    refine .inr ⟨by simp, k, ?_⟩
    simp only [loopStep, hpc] at hloop
    split at hloop
    · cases hloop
    · rename_i ev hev
      obtain ⟨hlt, -⟩ := List.getElem?_eq_some_iff.mp hev
      split at hloop
      · cases hloop
      · rename_i hready
        exact ⟨hlt, hready⟩
  | write =>
    have hwrite : step hs info s (.write true) = none := hrest (.write true) trivial
    simp only [step, hpc] at hwrite
    cases hwrite
  | thrown => exact absurd hpc h.returning.running

/-- At rest the loop waits for events exactly when no wakeup was lost. -/
theorem Steady.rest_iff (h : s.Steady hs info) (hn : 0 < n)
    (hrest : Lts.Resting (step hs info) Unaided s) :
    s.pc = .epollWait ↔ ∀ i, ¬ LostWakeup s.pool i := by
  have hr := h.rested hn hrest
  have hlists : (∀ i, ¬ LostWakeup s.pool i) ↔ ∀ k < s.tasks.length, s.pool.Ready k := by
    rw [hr.ready_iff h.inv.submitted hn]
    simp only [hr.lost_iff, not_not]
  rw [hlists]
  rcases h.rest_cases hn hrest with hpc | ⟨hpc, k, hk, hready⟩
  · refine iff_of_true hpc fun k hk => h.inv.waited k ?_
    simpa only [waitedFor, hpc] using hk
  · exact iff_of_false hpc fun hall => hready (hall k hk)

end Rest

/-- For every run with handlers that return: the loop and its workers come to rest, after a number
of steps that does not depend on their order; there the loop waits for the next batch exactly when
no wakeup was lost, and so always when every notification was heard. -/
theorem batch_ends (hn : 0 < n) (hs : Handlers τ) (info : Bool) (acts : List (Act n τ))
    (s : Reactor n τ) (hrun : Lts.run (step hs info) (init n τ) acts = some s)
    (hret : ∀ a ∈ acts, Returns hs a) :
    (∃ t, Lts.Reaches (step hs info) Unaided s t ∧ Lts.Resting (step hs info) Unaided t) ∧
      ∀ more t, (∀ a ∈ more, Unaided a) → Lts.run (step hs info) s more = some t →
        more.length ≤ s.work ∧
        (Lts.Resting (step hs info) Unaided t →
          (t.pc = .epollWait ↔ ∀ i, ¬ LostWakeup t.pool i) ∧
          (Lts.Along (step hs info) Heard (init n τ) (acts ++ more) → t.pc = .epollWait)) := by
  have hsteady := run_steady hret hrun
  have hstep : ∀ (s : Reactor n τ) (a : Act n τ) (t : Reactor n τ), s.Steady hs info → Unaided a →
      step hs info s a = some t → t.Steady hs info ∧ t.work < s.work :=
    fun _ _ _ h ha hu => ⟨step_steady h ha.returns hu, step_work h.inv ha hu⟩
  constructor
  · obtain ⟨t, ht, -, hrest⟩ := Lts.Reaches.resting work hstep s hsteady
    exact ⟨t, ht, hrest⟩
  · intro more t hmore ht
    obtain ⟨hsteady', hle⟩ := Lts.length_le_of_measure work hstep hsteady hmore ht
    refine ⟨by omega, ?_⟩
    intro hrest
    have hiff := hsteady'.rest_iff hn hrest
    refine ⟨hiff, ?_⟩
    intro hheard
    have hwhole : Lts.run (step hs info) (init n τ) (acts ++ more) = some t := by
      rw [Lts.run_append, hrun]
      exact ht
    have hexpected : Expected t.pool :=
      hheard.invariant (fun _ _ _ he ha hu => step_expected he ha hu) expected_init _ t hwhole
    exact hiff.mpr hexpected.not_lost

/-- One worker and a batch of two events -/
theorem batch_ends_pair :
    ∃ s, Lts.run (step throwing true) (init 1 Bool) [.epollWait [false, false]] = some s ∧
      (∃ t, Lts.Reaches (step throwing true) Unaided s t ∧
        Lts.Resting (step throwing true) Unaided t) ∧
      ∀ more t, (∀ a ∈ more, Unaided a) → Lts.run (step throwing true) s more = some t →
        more.length ≤ 74 := by
  have hret : ∀ a ∈ [(.epollWait [false, false] : Act 1 Bool)], Returns throwing a := by
    simp [Returns, throwing]
  obtain ⟨s, hs, hwork⟩ : ∃ s, Lts.run (step throwing true) (init 1 Bool)
      [.epollWait [false, false]] = some s ∧ s.work = 74 := ⟨_, rfl, by decide⟩
  obtain ⟨hrests, hends⟩ := batch_ends (by decide) throwing true _ s hs hret
  refine ⟨s, hs, hrests, ?_⟩
  intro more t hmore ht
  exact hwork ▸ (hends more t hmore ht).1

end Reactor
end SimpleWeb
